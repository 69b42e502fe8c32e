import Dokan.Ports.RunScript
import Dokan.Ports.ReceiptVerify

/-!
# Retrying a keyed `run_script`

A request with an idempotency key has made its run, and is repeated.  The
insert recalls the run, but it is the last gate: before it the files, the cache
and the quota may answer, and the first request may itself be what fills the
quota.

The retry's statements are interleaved with anything; the run is still there
when it is answered.

## Main results

* `nextPc_heads` — one statement of the retry: it stays on its way to the run
  exactly if its gate is open.
* `stepsLeft_nextPc` — and every statement brings it nearer to an answer.
* `idempotent_retry` — the retry creates no run, and returns the run if and
  only if every gate was open when it came to it.
* `not_idempotent_retry` — the 25th run of an agent, retried.
-/

namespace Dokan.Ports.RunRetry

open Dokan.Verified
open Dokan.Verified.Json
open Dokan.Ports.RunRow
open Dokan.Ports.RunScript
open Dokan.Ports.AgentQuota (Refusal quotaDecide agentMaxConcurrent agentComputeBudgetSecs)

/-- The same script, input, files, agent and key. -/
structure Repeats (a b : RunArgs) : Prop where
  scriptId : a.scriptId = b.scriptId
  input : a.input = b.input
  files : a.fileList.Perm b.fileList
  agentId : a.agentId = b.agentId
  idempotencyKey : a.idempotencyKey = b.idempotencyKey

/-- The gate a call has come to would let it on to run `r`; the budget query
answers `seconds`. -/
def GateOpen (s : Sys) (r : RunId) (call : Call) (seconds : Rat) : Prop :=
  match call.pc with
  | .file _ _ handle _ _ => s.blobs handle
  | .find _ key => ∀ row ∈ s.findCachedRun key, row.id = r
  | .count _ _ => s.agentRunningCount call.args.aid < agentMaxConcurrent
  | .spent _ _ _ => seconds < agentComputeBudgetSecs
  | _ => True

/-- Call `c` finds its gates open. -/
def RetryCond (c : CallId) (r : RunId) (s : Sys) : Label → Prop
  | .call c' seconds => c' = c → ∀ call ∈ s.calls[c]?, GateOpen s r call seconds
  | _ => True

instance (s : Sys) (r : RunId) (call : Call) (seconds : Rat) :
    Decidable (GateOpen s r call seconds) := by
  unfold GateOpen
  split <;> infer_instance

instance (c : CallId) (r : RunId) (s : Sys) : (a : Label) → Decidable (RetryCond c r s a)
  | .call c' seconds => inferInstanceAs
      (Decidable (c' = c → ∀ call ∈ s.calls[c]?, GateOpen s r call seconds))
  | .arrive _ _ | .enqueue _ | .write _ _ | .gcOld _ | .upload _ _ | .deleteScript _
  | .putBlob _ | .gcBlobs _ | .setSecret | .resolve _ _ | .wait _ => .isTrue trivial

/-- Call `c` was answered with run `r` and inserted none. -/
def Returned (t : Sys) (c : CallId) (r : RunId) (reply : Reply) : Prop :=
  reply.runId = some r ∧ c ∉ t.created

/-! ## On the way to the run -/

/-- A call at this point can come to run `r` of the key, and to no other. -/
def Heads (r : RunId) (key : String) : CallPc → Prop
  | .readBack k => k = key
  | .status id _ => id = r
  | .tag _ _ => False
  | .answered reply => reply.runId = some r
  | _ => True

/-- A call at this point has not come to run `r`. -/
def Misses (r : RunId) : CallPc → Prop
  | .answered reply => reply.runId ≠ some r
  | _ => False

section Heads

attribute [local irreducible] RunArgs.aid

variable {W : World} {s s' : Sys} {a : RunArgs} {r : RunId} {key : String} {call : Call}
  {seconds : Rat}

theorem heads_pastCache (hv : a.Valid) (blobs : Option Value) (cacheKey : Option String) :
    Heads r key (a.pastCache blobs cacheKey) := by
  unfold RunArgs.pastCache
  rw [if_neg (by rw [hv.agent]; exact Bool.false_ne_true)]
  trivial

theorem heads_pastFiles (hv : a.Valid) (script : Script) (blobs : Option Value) :
    Heads r key (a.pastFiles script blobs) := by
  unfold RunArgs.pastFiles
  split_ifs
  · trivial
  · exact heads_pastCache hv blobs none

theorem heads_nextFile (hv : a.Valid) {left : List (String × String)}
    (hleft : ∀ f ∈ left, f ∈ a.fileList) (script : Script) (map : List (String × Value)) :
    Heads r key (a.nextFile script left map) := by
  cases left with
  | nil => exact heads_pastFiles hv script _
  | cons f left =>
      obtain ⟨name, handle⟩ := f
      have hname : validName name := hv.names (name, handle) (hleft _ List.mem_cons_self)
      simp only [RunArgs.nextFile]
      rw [if_pos hname]
      trivial

theorem heads_resolveFiles (hv : a.Valid) (script : Script) :
    Heads r key (a.resolveFiles script) := by
  unfold RunArgs.resolveFiles
  split_ifs
  · exact heads_pastFiles hv script none
  · exact heads_nextFile hv (fun f hf => hf) script []

/-- Run `r` is there, with the script and the key of the request. -/
structure There (s : Sys) (a : RunArgs) (r : RunId) (key : String) (row : Row) : Prop where
  mem : row ∈ s.runs
  id : row.id = r
  scriptId : row.run.scriptId = a.scriptId
  idempotencyKey : row.run.idempotencyKey = some key

theorem There.mem_withKey {row : Row} (h : There s a r key row) : row ∈ s.withKey key :=
  List.mem_filter.mpr ⟨h.mem, decide_eq_true h.idempotencyKey⟩

/-- The key of a run that is there collides. -/
theorem There.conflict {row : Row} (h : There s a r key row)
    (hkey : a.idempotencyKey = some key) : s.conflict a.idempotencyKey = some key := by
  rw [hkey]
  simp [Sys.conflict, List.ne_nil_of_mem h.mem_withKey]

/-- **One statement of the retry.**  While its run is there, it stays on its way
to the run if its gate is open, and is answered without it if not. -/
theorem nextPc_heads {row : Row} (hI : Inv s) (hv : call.args.Valid)
    (hkey : call.args.idempotencyKey = some key) (hrow : There s call.args r key row)
    (hchecked : call.args.Checked call.pc) (h : Heads r key call.pc) :
    (GateOpen s r call seconds → Heads r key (s.nextPc W call seconds)) ∧
      (¬ GateOpen s r call seconds → Misses r (s.nextPc W call seconds)) := by
  unfold GateOpen Sys.nextPc
  cases hpc : call.pc with
  | script =>
      obtain ⟨script, hscript⟩ := Option.isSome_iff_exists.mp (hI.scripts row hrow.mem)
      rw [hrow.scriptId] at hscript
      simp only [hscript]
      exact ⟨fun _ => heads_resolveFiles hv script, fun hn => absurd trivial hn⟩
  | file script name handle left map =>
      rw [hpc] at hchecked
      obtain ⟨before, hfiles, _⟩ := hchecked
      have hleft : ∀ f ∈ left, f ∈ call.args.fileList := by
        intro f hf
        rw [hfiles]
        exact List.mem_append_right before (List.mem_cons_of_mem _ hf)
      refine ⟨fun hopen => ?_, fun hshut => ?_⟩
      · simp only [if_pos hopen]
        exact heads_nextFile hv hleft script _
      · simp only [if_neg hshut]
        exact fun heq => by cases heq
  | generation script blobs | digest script blobs gen =>
      exact ⟨fun _ => trivial, fun hn => absurd trivial hn⟩
  | find blobs k =>
      cases hfound : s.findCachedRun k with
      | none =>
          simp only [hfound]
          refine ⟨fun _ => heads_pastCache hv blobs _, fun hn => absurd ?_ hn⟩
          exact fun row' hrow' => by cases hrow'
      | some found =>
          simp only [hfound]
          refine ⟨fun hopen => congrArg some (hopen found rfl), fun hshut heq => hshut ?_⟩
          intro row' hrow'
          cases hrow'
          exact Option.some.inj heq
  | count blobs cacheKey =>
      refine ⟨fun hopen => ?_, fun hshut => ?_⟩
      · simp only [if_neg (Nat.not_le.mpr hopen)]
        trivial
      · have hle := Nat.not_lt.mp hshut
        simp only [if_pos hle, quotaDecide, CallPc.pastCheck]
        exact fun heq => by cases heq
  | spent blobs cacheKey inFlight =>
      rw [hpc] at hchecked
      have hlt := Nat.not_le.mpr hchecked.2
      refine ⟨fun hopen => ?_, fun hshut => ?_⟩
      · simp only [quotaDecide, if_neg hlt, if_neg (not_le.mpr hopen), CallPc.pastCheck]
        trivial
      · simp only [quotaDecide, if_neg hlt, if_pos (not_lt.mp hshut), CallPc.pastCheck]
        exact fun heq => by cases heq
  | insert blobs cacheKey =>
      simp only [hrow.conflict hkey]
      exact ⟨fun _ => rfl, fun hn => absurd trivial hn⟩
  | readBack k =>
      rw [hpc] at h
      cases h
      obtain ⟨first, rest, hfirst⟩ := List.exists_cons_of_ne_nil
        (List.ne_nil_of_mem hrow.mem_withKey)
      have hmem : first ∈ s.withKey key := by
        rw [hfirst]
        exact List.mem_cons_self
      obtain ⟨hin, hhas⟩ := List.mem_filter.mp hmem
      have hid : first.id = r := by
        rw [← hrow.id]
        exact hI.keys first hin row hrow.mem key (of_decide_eq_true hhas) hrow.idempotencyKey
      simp only [hfirst, List.head?_cons]
      exact ⟨fun _ => hid, fun hn => absurd trivial hn⟩
  | status id k =>
      rw [hpc] at h
      cases h
      exact ⟨fun _ => rfl, fun hn => absurd trivial hn⟩
  | tag id k =>
      rw [hpc] at h
      exact h.elim
  | answered reply =>
      rw [hpc] at h
      exact ⟨fun _ => h, fun hn => absurd trivial hn⟩

/-- While its run is there the retry inserts none. -/
theorem created_written {c : CallId} {row : Row} (hkey : call.args.idempotencyKey = some key)
    (hrow : There s call.args r key row) : (s.written W c call).created = s.created := by
  unfold Sys.written
  split
  · rw [if_neg]
    simp [Sys.admits, hrow.conflict hkey]
  · rfl
  · rfl

end Heads

/-! ## The retry among the others -/

section Retry

variable {W : World} {s s' : Sys} {a : RunArgs} {c : CallId} {r : RunId} {key : String}
  {P : CallPc → Prop} {label : Label}

/-- The retry of run `r` is at a point with `P` and has inserted nothing, as
long as the run is there. -/
structure Retry (a : RunArgs) (c : CallId) (r : RunId) (key : String) (P : CallPc → Prop)
    (s : Sys) : Prop where
  inv : Inv s
  given : r < s.nextRun
  row : ∀ row ∈ s.runs, row.id = r → There s a r key row
  call : ∃ call, s.calls[c]? = some call ∧ call.args = a ∧
    ∀ row, There s a r key row → P call.pc ∧ c ∉ s.created

/-- The statement is none of call `c`. -/
def Label.others (c : CallId) : Label → Bool
  | .call c' _ => c' ≠ c
  | _ => true

/-- The steps of the others leave a call where it is. -/
theorem step_others {call : Call} (h : step W s label = some s') (hothers : Label.others c label)
    (hcall : s.calls[c]? = some call) :
    s'.calls[c]? = some call ∧ (c ∉ s.created → c ∉ s'.created) := by
  cases label with
  | arrive p args =>
      cases h
      have hlt := (List.getElem?_eq_some_iff.mp hcall).1
      exact ⟨by rw [List.getElem?_append_left hlt]; exact hcall, fun h => h⟩
  | call c' seconds =>
      have hne : c' ≠ c := of_decide_eq_true hothers
      simp only [step] at h
      split at h
      · cases h
      · next call' hcall' =>
          unfold Sys.stepCall at h
          split_ifs at h
          cases h
          unfold Sys.written
          split
          · split_ifs
            · refine ⟨by simpa [Sys.setCall, Sys.insert, hne] using hcall, fun hnot hmem => ?_⟩
              rcases List.mem_cons.mp hmem with rfl | hmem
              · exact hne rfl
              · exact hnot hmem
            · exact ⟨by simpa [Sys.setCall, hne] using hcall, fun h => h⟩
          · exact ⟨by simpa [Sys.setCall, Sys.setRunCacheKey, hne] using hcall, fun h => h⟩
          · exact ⟨by simpa [Sys.setCall, hne] using hcall, fun h => h⟩
  | enqueue n =>
      cases h
      split_ifs <;> exact ⟨hcall, fun h => h⟩
  | write id run | gcOld doomed | upload id script | deleteScript id | putBlob handle
  | gcBlobs doomed | setSecret | resolve p digests | wait d =>
      cases h
      exact ⟨hcall, fun h => h⟩

/-- Run `r` stays what it is, and was there before if it is there after. -/
theorem Retry.rows (hR : Retry a c r key P s) (h : step W s label = some s') :
    ∀ row ∈ s'.runs, row.id = r → There s' a r key row ∧ ∃ old, There s a r key old := by
  intro row hrow hid
  rcases (rowsStep_step h).row row hrow with ⟨old, hold, hcore⟩ | ⟨_, hfresh⟩
  · obtain ⟨hids, _, hcols⟩ := core_eq hcore
    have hthere := hR.row old hold (hids.trans hid)
    exact ⟨⟨hrow, hid, by rw [← hcols]; exact hthere.scriptId,
      by rw [← hcols]; exact hthere.idempotencyKey⟩, old, hthere⟩
  · exact absurd hR.given (Nat.not_lt.mpr (Nat.le_of_eq (hfresh.id.symm.trans hid)))

/-- The steps of the others. -/
theorem Retry.others (hR : Retry a c r key P s) (h : step W s label = some s')
    (hothers : Label.others c label) : Retry a c r key P s' := by
  obtain ⟨call, hcall, hargs, hP⟩ := hR.call
  obtain ⟨hcall', hcreated⟩ := step_others h hothers hcall
  refine ⟨hR.inv.step h, Nat.lt_of_lt_of_le hR.given (rowsStep_step h).next,
    fun row hrow hid => (hR.rows h row hrow hid).1, call, hcall', hargs, fun row hrow => ?_⟩
  obtain ⟨old, hold⟩ := (hR.rows h row hrow.mem hrow.id).2
  exact ⟨(hP old hold).1, hcreated (hP old hold).2⟩

/-- A statement of the retry. -/
theorem Retry.own (hR : Retry a c r key P s) (hkey : a.idempotencyKey = some key)
    {seconds : Rat} (h : step W s (.call c seconds) = some s') {Q : CallPc → Prop}
    (hQ : ∀ call row, s.calls[c]? = some call → call.args = a → There s a r key row →
      call.pc.isAnswered = false → P call.pc → Q (s.nextPc W call seconds)) :
    Retry a c r key Q s' := by
  obtain ⟨call, hcall, hargs, hP⟩ := hR.call
  have hrows := hR.rows h
  have hinv := hR.inv.step h
  have hnext := (rowsStep_step h).next
  simp only [step, hcall] at h
  unfold Sys.stepCall at h
  split_ifs at h with hanswered
  cases h
  refine ⟨hinv, Nat.lt_of_lt_of_le hR.given hnext, fun row hrow hid => (hrows row hrow hid).1,
    { call with pc := s.nextPc W call seconds }, ?_, hargs, fun row hrow => ?_⟩
  · have hlt := (List.getElem?_eq_some_iff.mp hcall).1
    simp only [Sys.setCall, written_calls]
    rw [List.getElem?_set_self hlt]
  · obtain ⟨old, hold⟩ := (hrows row hrow.mem hrow.id).2
    refine ⟨hQ call old hcall hargs hold (by simpa using hanswered) (hP old hold).1, ?_⟩
    have hcreated := created_written (W := W) (c := c) (hargs ▸ hkey) (hargs ▸ hold)
    exact fun hmem => (hP old hold).2 (hcreated ▸ hmem)

theorem others_or_own (c : CallId) (label : Label) :
    Label.others c label ∨ ∃ seconds, label = .call c seconds := by
  cases label with
  | call c' seconds =>
      by_cases hc : c' = c
      · exact .inr ⟨seconds, hc ▸ rfl⟩
      · exact .inl (decide_eq_true hc)
  | arrive p args | enqueue n | write id run | gcOld doomed | upload id script | deleteScript id
  | putBlob handle | gcBlobs doomed | setSecret | resolve p digests | wait d => exact .inl rfl

theorem retryCond_of_others (hothers : Label.others c label) : RetryCond c r s label := by
  cases label with
  | call c' seconds => exact fun hc => absurd hc (of_decide_eq_true hothers)
  | arrive p args | enqueue n | write id run | gcOld doomed | upload id script | deleteScript id
  | putBlob handle | gcBlobs doomed | setSecret | resolve p digests | wait d => exact trivial

/-- **A step with the gate open** leaves the retry on its way. -/
theorem Retry.stay (hv : a.Valid) (hkey : a.idempotencyKey = some key)
    (hR : Retry a c r key (Heads r key) s) (hC : RetryCond c r s label)
    (h : step W s label = some s') : Retry a c r key (Heads r key) s' := by
  rcases others_or_own c label with hothers | ⟨seconds, rfl⟩
  · exact hR.others h hothers
  · refine hR.own hkey h fun call row hcall hargs hrow _ hheads => ?_
    subst hargs
    exact (nextPc_heads hR.inv hv hkey hrow
      (hR.inv.calls call (List.mem_of_getElem? hcall)) hheads).1 (hC rfl call hcall)

/-- **A statement with the gate shut** answers it without the run. -/
theorem Retry.leave (hv : a.Valid) (hkey : a.idempotencyKey = some key)
    (hR : Retry a c r key (Heads r key) s) (hC : ¬ RetryCond c r s label)
    (h : step W s label = some s') : Retry a c r key (Misses r) s' := by
  rcases others_or_own c label with hothers | ⟨seconds, rfl⟩
  · exact absurd (retryCond_of_others hothers) hC
  · refine hR.own hkey h fun call row hcall hargs hrow _ hheads => ?_
    subst hargs
    refine (nextPc_heads hR.inv hv hkey hrow
      (hR.inv.calls call (List.mem_of_getElem? hcall)) hheads).2 fun hopen => hC ?_
    intro _ call' hcall'
    rw [hcall] at hcall'
    cases hcall'
    exact hopen

/-- And it stays answered. -/
theorem Retry.gone (hkey : a.idempotencyKey = some key) (hR : Retry a c r key (Misses r) s)
    (h : step W s label = some s') : Retry a c r key (Misses r) s' := by
  rcases others_or_own c label with hothers | ⟨seconds, rfl⟩
  · exact hR.others h hothers
  · refine hR.own hkey h fun call row _ _ _ hanswered hmisses => ?_
    cases hpc : call.pc with
    | answered reply =>
        rw [hpc] at hanswered
        cases hanswered
    | script | file script name handle left map | generation script blobs
    | digest script blobs gen | find blobs k | count blobs cacheKey
    | spent blobs cacheKey inFlight | insert blobs cacheKey | readBack k | status id k
    | tag id k =>
        rw [hpc] at hmisses
        exact hmisses.elim

end Retry

/-! ## The retry is answered -/

/-- An upper bound on the statements a call has before it. -/
def stepsLeft (a : RunArgs) : CallPc → Nat
  | .script => a.fileList.length + 9
  | .file _ _ _ left _ => left.length + 9
  | .generation _ _ => 8
  | .digest _ _ _ => 7
  | .find _ _ => 6
  | .count _ _ => 5
  | .spent _ _ _ => 4
  | .insert _ _ => 3
  | .readBack _ => 2
  | .status _ _ | .tag _ _ => 1
  | .answered _ => 0

section Answered

attribute [local irreducible] RunArgs.aid

variable {W : World} {s s' : Sys} {a : RunArgs} {c : CallId} {call : Call} {seconds : Rat}
  {label : Label}

theorem stepsLeft_pastCache (blobs : Option Value) (cacheKey : Option String) :
    stepsLeft a (a.pastCache blobs cacheKey) ≤ 5 := by
  unfold RunArgs.pastCache
  split_ifs
  · exact Nat.zero_le 5
  · exact Nat.le_refl 5

theorem stepsLeft_pastFiles (script : Script) (blobs : Option Value) :
    stepsLeft a (a.pastFiles script blobs) ≤ 8 := by
  unfold RunArgs.pastFiles
  split_ifs
  · exact Nat.le_refl 8
  · exact Nat.le_trans (stepsLeft_pastCache blobs none) (by decide)

theorem stepsLeft_nextFile (script : Script) (left : List (String × String))
    (map : List (String × Value)) :
    stepsLeft a (a.nextFile script left map) ≤ left.length + 8 := by
  cases left with
  | nil => exact stepsLeft_pastFiles script _
  | cons f left =>
      obtain ⟨name, handle⟩ := f
      simp only [RunArgs.nextFile]
      split_ifs
      · simp only [stepsLeft, List.length_cons]
        omega
      · exact Nat.zero_le _

theorem stepsLeft_pastCheck (blobs : Option Value) (cacheKey : Option String)
    (refusal : Option Refusal) : stepsLeft a (.pastCheck blobs cacheKey refusal) ≤ 3 := by
  cases refusal with
  | none => exact Nat.le_refl 3
  | some refusal => exact Nat.zero_le 3

/-- **Every statement** of a call brings it nearer to its answer. -/
theorem stepsLeft_nextPc (h : call.pc.isAnswered = false) :
    stepsLeft call.args (s.nextPc W call seconds) < stepsLeft call.args call.pc := by
  unfold Sys.nextPc
  cases hpc : call.pc with
  | script =>
      simp only
      split
      · exact Nat.succ_pos _
      · unfold RunArgs.resolveFiles
        split_ifs
        · exact Nat.lt_of_le_of_lt (stepsLeft_pastFiles _ none)
            (Nat.lt_of_lt_of_le (Nat.lt_succ_self 8) (Nat.le_add_left 9 _))
        · exact Nat.lt_succ_of_le (stepsLeft_nextFile _ call.args.fileList [])
  | file script name handle left map =>
      simp only
      split_ifs
      · exact Nat.lt_succ_of_le (stepsLeft_nextFile script left _)
      · exact Nat.succ_pos _
  | generation script blobs => exact Nat.lt_succ_self 7
  | digest script blobs gen => exact Nat.lt_succ_self 6
  | find blobs key =>
      simp only
      split
      · exact Nat.succ_pos 5
      · exact Nat.lt_succ_of_le (stepsLeft_pastCache blobs _)
  | count blobs cacheKey =>
      simp only
      split_ifs
      · exact Nat.lt_of_le_of_lt (stepsLeft_pastCheck blobs cacheKey _)
          (Nat.lt_succ_of_lt (Nat.lt_succ_self 3))
      · exact Nat.lt_succ_self 4
  | spent blobs cacheKey inFlight =>
      exact Nat.lt_succ_of_le (stepsLeft_pastCheck blobs cacheKey _)
  | insert blobs cacheKey =>
      simp only
      split
      · exact Nat.lt_succ_self 2
      · split_ifs
        · cases cacheKey with
          | none => exact Nat.succ_pos 2
          | some key => exact Nat.lt_succ_of_lt (Nat.lt_succ_self 1)
        · exact Nat.succ_pos 2
  | readBack key =>
      simp only
      split
      · exact Nat.lt_succ_self 1
      · exact Nat.succ_pos 1
  | status r key | tag r key => exact Nat.succ_pos 0
  | answered reply =>
      rw [hpc] at h
      cases h

/-- The statements call `c` has before it. -/
def callLeft (c : CallId) (s : Sys) : Nat :=
  (s.calls[c]?.map fun call => stepsLeft call.args call.pc).getD 0

/-- A call that is there stays there, and has one statement less before it after
each of its own. -/
theorem callLeft_step (hcall : c < s.calls.length) (h : step W s label = some s') :
    c < s'.calls.length ∧
      callLeft c s' + (if (!Label.others c label) then 1 else 0) ≤ callLeft c s := by
  have hget : s.calls[c]? = some s.calls[c] := List.getElem?_eq_getElem hcall
  rcases others_or_own c label with hothers | ⟨seconds, rfl⟩
  · have hget' := (step_others h hothers hget).1
    refine ⟨(List.getElem?_eq_some_iff.mp hget').1, ?_⟩
    rw [hothers]
    simp [callLeft, hget, hget']
  · simp only [step, hget] at h
    unfold Sys.stepCall at h
    split_ifs at h with hanswered
    cases h
    have hlt : stepsLeft s.calls[c].args (s.nextPc W s.calls[c] seconds) <
        stepsLeft s.calls[c].args s.calls[c].pc :=
      stepsLeft_nextPc (Bool.eq_false_iff.mpr hanswered)
    refine ⟨by simpa [Sys.setCall, written_calls] using hcall, ?_⟩
    simpa [callLeft, Sys.setCall, written_calls, hcall, hget, Label.others, Nat.succ_le_iff]
      using hlt

/-- A call that is not answered has a next statement. -/
theorem step_enabled (hcall : s.calls[c]? = some call) (h : call.pc.isAnswered = false)
    (seconds : Rat) : (step W s (.call c seconds)).isSome := by
  simp only [step, hcall, Sys.stepCall, h]
  rfl

end Answered

/-! ## Idempotent retry -/

theorem Repeats.valid {a b : RunArgs} (h : Repeats a b) (hb : b.Valid) : a.Valid := by
  refine ⟨fun f hf => hb.names f (h.files.mem_iff.mp hf), ?_⟩
  have haid : a.aid = b.aid := by
    unfold RunArgs.aid
    rw [h.agentId]
  rw [haid]
  exact hb.agent

/-- Run `row` was made by the keyed request `b` in the state `s`, `a` repeats it, and the
retry leads to `t`, where the run still is. -/
structure RetryRun (W : World) (s t : Sys) (row : Row) (a b : RunArgs) (key : String)
    (p : Proc) (l : List Label) : Prop where
  reachable : ∃ l₀, Machine.run (step W) init l₀ = some s
  made : row ∈ s.runs ∧ row.asked = some b
  key : b.idempotencyKey = some key
  repeats : Repeats a b
  run : Machine.run (step W) s (.arrive p a :: l) = some t
  there : ∃ row' ∈ t.runs, row'.id = row.id

/-- The retry has arrived. -/
theorem RetryRun.start {W : World} {s t : Sys} {row : Row} {a b : RunArgs} {key : String}
    {p : Proc} {l : List Label} (h : RetryRun W s t row a b key p l) :
    a.Valid ∧ a.idempotencyKey = some key ∧
      ∃ s₁, step W s (.arrive p a) = some s₁ ∧ Machine.run (step W) s₁ l = some t ∧
        Retry a s.calls.length row.id key (Heads row.id key) s₁ ∧
        callLeft s.calls.length s₁ = a.fileList.length + 9 := by
  obtain ⟨l₀, hrun₀⟩ := h.reachable
  have hI := inv_run hrun₀
  obtain ⟨hb, hscript, hidem⟩ := hI.asked row h.made.1 b h.made.2
  have hkey : a.idempotencyKey = some key := h.repeats.idempotencyKey.trans h.key
  obtain ⟨s₁, hs₁, hrest⟩ := Machine.run_cons_some h.run
  refine ⟨h.repeats.valid hb, hkey, s₁, hs₁, hrest, ?_, ?_⟩
  · have hI₁ := hI.step hs₁
    cases hs₁
    refine ⟨hI₁, hI.ordered.lt row h.made.1, fun row' hrow' hid => ?_, _,
      List.getElem?_concat_length, rfl, fun row' hrow' => ⟨trivial, fun hmem => ?_⟩⟩
    · obtain rfl := hI.row_unique hrow' h.made.1 hid
      exact ⟨hrow', rfl, hscript.trans h.repeats.scriptId.symm, hidem.trans h.key⟩
    · exact absurd (hI.created _ hmem) (Nat.lt_irrefl _)
  · cases hs₁
    simp [callLeft, stepsLeft]

/-- **Idempotent retry.**  For every run a keyed request has made, in every
reachable state, and for every interleaving after which it is still there: the
retry has a next statement until it is answered, after at most nine and one for
each file; and it is answered with that run, and has inserted none, if and only
if each gate was open when it came to it. -/
theorem idempotent_retry {W : World} {s t : Sys} {row : Row} {a b : RunArgs} {key : String}
    {p : Proc} {l : List Label} (h : RetryRun W s t row a b key p l) :
    ∃ call, t.calls[s.calls.length]? = some call ∧
      (l.filter fun x => !Label.others s.calls.length x).length ≤ a.fileList.length + 9 ∧
      (call.pc.isAnswered = false →
        ∀ seconds, (step W t (.call s.calls.length seconds)).isSome) ∧
      s.calls.length ∉ t.created ∧
      ∀ reply, call.pc = .answered reply →
        (Returned t s.calls.length row.id reply ↔
          Machine.Along (step W) (RetryCond s.calls.length row.id) s (.arrive p a :: l)) := by
  obtain ⟨hv, hkey, s₁, hs₁, hrest, hstart, hleft⟩ := h.start
  have hcount := Machine.count_run_le (C := fun _ _ => True)
    (I := fun s₁ => s.calls.length < s₁.calls.length) (fun x => !Label.others s.calls.length x)
    (callLeft s.calls.length) (fun _ _ _ hI _ hs => callLeft_step hI hs)
    (by obtain ⟨call, hcall, _⟩ := hstart.call; exact (List.getElem?_eq_some_iff.mp hcall).1)
    (Machine.along_of_forall fun _ _ => trivial) hrest
  have hends := Machine.along_or_run (C := RetryCond s.calls.length row.id)
    (fun _ _ _ hR hC hs => hR.stay hv hkey hC hs) (fun _ _ _ hR hC hs => hR.leave hv hkey hC hs)
    (fun _ _ _ hR hs => hR.gone hkey hs) hstart hrest
  have halong : Machine.Along (step W) (RetryCond s.calls.length row.id) s (.arrive p a :: l) ↔
      Machine.Along (step W) (RetryCond s.calls.length row.id) s₁ l :=
    ⟨fun hA => hA.2 s₁ hs₁, fun hA => Machine.along_cons hs₁ trivial hA⟩
  obtain ⟨row', hrow', hid⟩ := h.there
  rw [halong]
  rcases hends with ⟨hA, hR⟩ | ⟨hA, hR⟩
  · obtain ⟨call, hcall, _, hP⟩ := hR.call
    obtain ⟨hheads, hcreated⟩ := hP row' (hR.row row' hrow' hid)
    refine ⟨call, hcall, by omega, step_enabled hcall, hcreated, fun reply hpc => ?_⟩
    rw [hpc] at hheads
    exact ⟨fun _ => hA, fun _ => ⟨hheads, hcreated⟩⟩
  · obtain ⟨call, hcall, _, hP⟩ := hR.call
    obtain ⟨hmisses, hcreated⟩ := hP row' (hR.row row' hrow' hid)
    refine ⟨call, hcall, by omega, step_enabled hcall, hcreated, fun reply hpc => ?_⟩
    rw [hpc] at hmisses
    exact ⟨fun hret => absurd hret.1 hmisses, fun hA' => absurd hA' hA⟩

/-! ## The 25th run of an agent -/

def demoWorld : World where
  crypto := Receipt.demoHash
  plain := fun _ => true
  fromStr := fun _ => none

/-- Script 1 for agent `a` under the key `k`. -/
def request : RunArgs where
  scriptId := 1
  input := none
  cache := none
  agentId := "a"
  idempotencyKey := some "k"
  files := none
  captureOutput := none

/-- A webhook's run for the same agent. -/
def hooked : NewRun where
  scriptId := 1
  input := .object []
  agentId := some "a"
  inputBlobs := none
  captureOutput := false
  idempotencyKey := none

/-- So many runs of the agent are in flight when the request makes its own. -/
def made (others : Nat) : List Label :=
  [.upload 1 { runtime := "bash", source := "true" }] ++
    List.replicate others (.enqueue hooked) ++
    [.arrive 0 request, .call 0 0, .call 0 0, .call 0 0, .call 0 0]

/-- The run of the request. -/
def requestRow (others : Nat) : Row where
  id := others
  run := insertRunWithBlobs 0 (request.newRun demoWorld none)
  cacheKey := none
  asked := some request

/-- A keyed request's retry is answered with the run, as long as it is there, and
inserts none. -/
def IdempotentRetry (W : World) : Prop :=
  ∀ s t row a b key p l, RetryRun W s t row a b key p l →
    ∀ call reply, t.calls[s.calls.length]? = some call → call.pc = .answered reply →
      Returned t s.calls.length row.id reply

theorem Repeats.refl (a : RunArgs) : Repeats a a := ⟨rfl, rfl, .refl _, rfl, rfl⟩

/-- The request fills the quota, and its retry is refused. -/
theorem not_idempotent_retry : ¬ IdempotentRetry demoWorld := by
  intro h
  have hrun : RetryRun demoWorld _ _ (requestRow 24) request request "k" 0
      [.call 1 0, .call 1 0] :=
    { reachable := ⟨made 24, rfl⟩
      made := ⟨List.mem_of_getElem? (i := 24) rfl, rfl⟩
      key := rfl
      repeats := .refl request
      run := rfl
      there := ⟨requestRow 24, List.mem_of_getElem? (i := 24) rfl, rfl⟩ }
  have hret := h _ _ _ _ _ _ _ _ hrun _ (.refused (.concurrency 25)) rfl rfl
  exact absurd hret.1 (by decide)

/-- `idempotent_retry` with 23 others: the retry is the 24th in flight. -/
theorem idempotent_retry_queued :
    ∃ s t, RetryRun demoWorld s t (requestRow 23) request request "k" 0
        (List.replicate 6 (.call 1 0)) ∧
      Returned t s.calls.length 23 (.idempotent 23 .pending) := by
  have hrun : RetryRun demoWorld _ _ (requestRow 23) request request "k" 0
      (List.replicate 6 (.call 1 0)) :=
    { reachable := ⟨made 23, rfl⟩
      made := ⟨List.mem_of_getElem? (i := 23) rfl, rfl⟩
      key := rfl
      repeats := .refl request
      run := rfl
      there := ⟨requestRow 23, List.mem_of_getElem? (i := 23) rfl, rfl⟩ }
  obtain ⟨call, hcall, _, _, _, hiff⟩ := idempotent_retry hrun
  cases hcall
  exact ⟨_, _, hrun, (hiff _ rfl).mpr (by decide)⟩

end Dokan.Ports.RunRetry
