import Dokan.Verified.Fields
import Dokan.Ports.ExecFaults
import Dokan.Ports.RunScript

/-!
# The faults of `schedule`

`schedule` checks its request, inserts an enabled row, reads it back, and
registers a ticker for it.  Nothing is in the table before the insert; after it
only a failed registration disables the row again, by one more statement whose
result is dropped.

A statement may succeed, fail, or take effect without an answer.  Other calls may
disable the row or delete it between two statements.  What croner, the time zone
tables and the scheduler do is a parameter, and so are the texts of internal
errors but one.

## Main results

* `refuses_check` — every refusal is an error, and comes before the insert.
* `schedule_clean_iff` — when an error leaves an enabled row behind.
-/

namespace Dokan.Ports.ScheduleFaults

open Dokan.Verified.Json
open Dokan.Verified.Fields (fields)
open Dokan.Ports.ExecFaults (Sent)
open Dokan.Ports.PumpLogs (isWhitespace trim)
open Dokan.Ports.RunScript (destringify validName)

/-! ## Requests and rows -/

/-- What a daemon brings along. -/
structure World where
  run : RunScript.World
  /-- the daemon has a scheduler -/
  cron : Bool
  /-- `cron::parse_cron`, and its error -/
  parseCron : String → Except String Unit
  /-- `Tz::from_str`, and the name of the zone -/
  fromStr : String → Option String
  /-- `cron::next_fire` of an expression in a zone, as it is printed -/
  nextFire : String → Option String → Option String

/-- `ScheduleArgs`; the files in the order in which their map iterates. -/
structure ScheduleArgs where
  scriptId : Int
  cron : String
  input : Option Value
  agentId : Option String
  files : Option (List (String × String))
  captureOutput : Option Bool
  idempotency : Option Bool
  timezone : Option String

/-- `ScheduleOpts`. -/
structure ScheduleOpts where
  agentId : Option String
  inputBlobs : Option Value
  captureOutput : Bool
  idempotency : Bool
  timezone : Option String

/-- A row of `schedules`. -/
structure Schedule where
  id : Int
  scriptId : Int
  cron : String
  input : Value
  opts : ScheduleOpts
  enabled : Bool

/-- What becomes of the row between two statements of the call. -/
inductive Meanwhile
  | untouched
  | disabled
  | deleted
deriving DecidableEq

def Meanwhile.apply : Meanwhile → Option Schedule → Option Schedule
  | .untouched, row => row
  | .disabled, row => row.map fun r => { r with enabled := false }
  | .deleted, _ => none

/-- What becomes of the steps of a call. -/
structure Outcomes where
  /-- `get_script`: whether there is one, if the query succeeds -/
  getScript : Option Bool
  /-- `blob_exists`, if the query succeeds -/
  blobExists : String → Option Bool
  insert : Sent
  /-- the id the insert draws -/
  id : Int
  afterInsert : Meanwhile
  /-- `get_schedule` succeeds -/
  getSchedule : Bool
  afterRead : Meanwhile
  /-- `Cron::add` succeeds -/
  add : Bool
  /-- `set_schedule_enabled` -/
  disable : Sent

/-- What a call answers. -/
inductive Reply
  /-- a tool result -/
  | result (v : Value)
  /-- an `McpError` -/
  | internal (detail : Option String)

/-- The answer is an error. -/
def Reply.isError : Reply → Bool
  | .result v => (v.get? "error").isSome
  | .internal _ => true

/-- `error_envelope`. -/
def errorEnvelope (code message : String) (hint : Option String)
    (extra : List (String × Value)) : Value :=
  .object ([("error", .str code), ("message", .str message)] ++
    (hint.map fun h => ("hint", Value.str h)).toList ++ extra)

/-- `err_ctx`. -/
def errCtx (code message : String) (hint : Option String) (extra : List (String × Value)) :
    Reply :=
  .result (errorEnvelope code message hint extra)

/-! ## Checks -/

/-- `validate_cron`. -/
def validateCron (expr : String) : Except String Unit :=
  let n := (fields isWhitespace expr.toList).length
  if n ≠ 6 then
    throw ("cron must be 6 fields (leading SECONDS): `sec min hour day month weekday` — " ++
      "got " ++ toString n ++ ". A standard 5-field crontab needs a leading `0 ` (e.g. `0 " ++
      expr ++ "`).")
  else return ()

/-- A check that may end the call with an answer. -/
abbrev Checked := Except Reply

/-- The daemon has a scheduler. -/
def scheduler (W : World) : Checked Unit :=
  if W.cron then return ()
  else
    throw (errCtx "scheduler_disabled" "the cron scheduler is not enabled on this daemon" none [])

/-- The answer to an expression that is refused. -/
def invalidCron (e : String) : Reply :=
  errCtx "invalid_cron" "the cron expression is invalid"
    (some "6 fields with leading seconds, e.g. 0 */5 * * * *") [("detail", .str e)]

/-- Both checks of the expression. -/
def expression (W : World) (cron : String) : Checked Unit :=
  match validateCron cron with
  | .error e => throw (invalidCron e)
  | .ok () =>
      match W.parseCron cron with
      | .error e => throw (invalidCron e)
      | .ok () => return ()

/-- `cron::parse_timezone`. -/
def parseTimezone (W : World) (name : String) : Except String String :=
  match W.fromStr (String.ofList (trim name.toList)) with
  | some tz => return tz
  | none =>
      throw ("unknown time zone `" ++ name ++ "` (expected an IANA name such as Europe/Zurich)")

/-- The zone of a request. -/
def zone (W : World) (timezone : Option String) : Checked (Option String) :=
  match (timezone.map fun t => String.ofList (trim t.toList)).filter fun t => t ≠ "" with
  | none => return none
  | some name =>
      match parseTimezone W name with
      | .ok tz => return some tz
      | .error e =>
          throw (errCtx "invalid_timezone" e
            (some "use an IANA name, e.g. Europe/Zurich or America/New_York")
            [("timezone", .str name)])

/-- The script of a request is there. -/
def script (o : Outcomes) (scriptId : Int) : Checked Unit :=
  match o.getScript with
  | none => throw (.internal none)
  | some false =>
      throw (errCtx "script_not_found" "no script with that id"
        (some "check list_scripts for valid ids") [("id", .num (.int scriptId))])
  | some true => return ()

/-- The agent of a request: not empty when it is given. -/
def agent (agentId : Option String) : Checked (Option String) :=
  match agentId.map fun a => String.ofList (trim a.toList) with
  | some "" =>
      throw (errCtx "agent_id_required" "agent_id must be non-empty when given"
        (some "pass your agent id, or omit it for a schedule without agent") [])
  | aid => return aid

/-- The loop of `resolve_files`. -/
def resolveFrom (o : Outcomes) :
    List (String × String) → List (String × Value) → Checked (List (String × Value))
  | [], map => return map
  | (name, handle) :: left, map =>
      if !validName name then
        throw (errCtx "invalid_file_name" "a file dest name is invalid"
          (some "dest names must be plain filenames (no '/' or '..')") [("name", .str name)])
      else
        match o.blobExists handle with
        | none => throw (.internal none)
        | some false =>
            throw (errCtx "unknown_blob_handle" "an input file handle is unknown"
              (some "upload the file with upload_blob first; nothing was created")
              [("name", .str name), ("handle", .str handle)])
        | some true => resolveFrom o left (Value.insertKey name (.str handle) map)

/-- `resolve_files`. -/
def resolveFiles (o : Outcomes) (files : Option (List (String × String))) :
    Checked (Option Value) :=
  match files.filter fun f => !f.isEmpty with
  | none => return none
  | some files => do return some (.obj (← resolveFrom o files []))

/-- The checks of a request, and the options of its row. -/
def check (W : World) (o : Outcomes) (a : ScheduleArgs) : Checked ScheduleOpts := do
  scheduler W
  expression W a.cron
  let tz ← zone W a.timezone
  script o a.scriptId
  let agentId ← agent a.agentId
  let inputBlobs ← resolveFiles o a.files
  return ⟨agentId, inputBlobs, a.captureOutput.getD false, a.idempotency.getD false, tz⟩

/-! ## The call -/

/-- The row of `insert_schedule`; `enabled` is true by default. -/
def newRow (W : World) (o : Outcomes) (a : ScheduleArgs) (opts : ScheduleOpts) : Schedule where
  id := o.id
  scriptId := a.scriptId
  cron := a.cron
  input := destringify W.run (a.input.getD (.object []))
  opts
  enabled := true

/-- The answer to a request that was carried out. -/
def scheduled (W : World) (o : Outcomes) (a : ScheduleArgs) (opts : ScheduleOpts) : Reply :=
  let out := [("schedule_id", Value.num (.int o.id)), ("cron", .str a.cron),
    ("status", .str "scheduled"),
    ("next_fire", ((W.nextFire a.cron opts.timezone).map Value.str).getD .null)]
  .result (.object (out ++ (opts.timezone.map fun tz => ("timezone", Value.str tz)).toList))

/-- Past the insert: what is left of the row, and the answer. -/
def register (o : Outcomes) (done : Reply) (row : Option Schedule) : Option Schedule × Reply :=
  if !o.getSchedule then (row, .internal none)
  else if row.isNone then
    (row, .internal (some ("schedule " ++ toString o.id ++ " vanished after insert")))
  else
    let row := o.afterRead.apply row
    if o.add then (row, done)
    else
      -- `let _ = set_schedule_enabled(id, false)`
      (if o.disable.applied then row.map fun r => { r with enabled := false } else row,
        .internal none)

/-- `Dokan::schedule`. -/
def schedule (W : World) (o : Outcomes) (a : ScheduleArgs) : Option Schedule × Reply :=
  match check W o a with
  | .error reply => (none, reply)
  | .ok opts =>
      let row := o.afterInsert.apply
        (if o.insert.applied then some (newRow W o a opts) else none)
      if o.insert.acked then register o (scheduled W o a opts) row else (row, .internal none)

/-! ## What is left -/

/-- No enabled row is left. -/
def Clean (row : Option Schedule) : Prop := ∀ r, row = some r → r.enabled = false

/-- The row is in the table when the call returns an error, and neither the call nor
another has disabled or deleted it. -/
structure Outcomes.Leaves (o : Outcomes) : Prop where
  applied : o.insert.applied = true
  afterInsert : o.afterInsert = .untouched
  fault : o.insert.acked = false ∨ o.getSchedule = false ∨
    o.afterRead = .untouched ∧ o.add = false ∧ o.disable.applied = false

section Rows

variable {W : World} {o : Outcomes} {a : ScheduleArgs} {opts : ScheduleOpts}
  {row : Option Schedule}

theorem clean_none : Clean none := fun _ h => by cases h

theorem clean_disabled (row : Option Schedule) :
    Clean (row.map fun r => { r with enabled := false }) := by
  intro r h
  obtain ⟨_, _, rfl⟩ := Option.map_eq_some_iff.mp h
  rfl

theorem not_clean_newRow : ¬ Clean (some (newRow W o a opts)) := by
  intro h
  cases h _ rfl

/-- What is clean stays clean. -/
theorem Clean.apply (h : Clean row) (m : Meanwhile) : Clean (m.apply row) := by
  cases m with
  | untouched => exact h
  | disabled => exact clean_disabled row
  | deleted => exact clean_none

theorem clean_apply_of_ne {m : Meanwhile} (h : m ≠ .untouched) (row : Option Schedule) :
    Clean (m.apply row) := by
  cases m with
  | untouched => exact absurd rfl h
  | disabled => exact clean_disabled row
  | deleted => exact clean_none

/-- The answer to a request that was carried out is no error. -/
theorem isError_scheduled (W : World) (o : Outcomes) (a : ScheduleArgs) (opts : ScheduleOpts) :
    (scheduled W o a opts).isError = false := by
  have hnil : (Value.obj []).get? "error" = none := rfl
  cases htz : opts.timezone with
  | none => simp [scheduled, Reply.isError, Value.object, hnil, htz]
  | some tz => simp [scheduled, Reply.isError, Value.object, hnil, htz]

/-- Nothing that is clean after the insert is enabled later. -/
theorem clean_register (h : Clean row) (done : Reply) : Clean (register o done row).1 := by
  unfold register
  split_ifs
  · exact h
  · exact h
  · exact h.apply _
  · exact clean_disabled _
  · exact h.apply _

/-! ## Refusals -/

theorem get?_object_isSome {pairs : List (String × Value)} {k : String}
    (h : k ∈ pairs.map Prod.fst) : ((Value.object pairs).get? k).isSome = true := by
  have hfold : ∀ (m : List (String × Value)),
      (k ∈ pairs.map Prod.fst ∨ (Value.get? (.obj m) k).isSome = true) →
        (Value.get? (.obj (pairs.foldl (fun m p => Value.insertKey p.1 p.2 m) m)) k).isSome =
          true := by
    clear h
    induction pairs with
    | nil => simp
    | cons p pairs ih =>
        intro m h
        rw [List.foldl_cons]
        refine ih _ ?_
        rw [Value.get?_insertKey]
        split_ifs with hk
        · exact .inr rfl
        · rw [List.map_cons, List.mem_cons] at h
          exact h.imp_left fun h => h.resolve_left hk
  exact hfold [] (.inl h)

theorem isError_errCtx (code message : String) (hint : Option String)
    (extra : List (String × Value)) : (errCtx code message hint extra).isError = true :=
  get?_object_isSome (by simp)

/-- The answers a check ends a call with are errors. -/
def Refuses {α : Type} (x : Checked α) : Prop := ∀ r, x = .error r → r.isError = true

theorem refuses_pure {α : Type} (v : α) : Refuses (pure v) := fun _ h => by cases h

theorem refuses_internal {α : Type} (detail : Option String) :
    Refuses (throw (.internal detail) : Checked α) := by
  intro r h
  cases h
  rfl

theorem refuses_errCtx {α : Type} (code message : String) (hint : Option String)
    (extra : List (String × Value)) :
    Refuses (throw (errCtx code message hint extra) : Checked α) := by
  intro r h
  cases h
  exact isError_errCtx code message hint extra

theorem Refuses.bind {α β : Type} {x : Checked α} {f : α → Checked β} (hx : Refuses x)
    (hf : ∀ v, Refuses (f v)) : Refuses (x >>= f) := by
  intro r h
  cases x with
  | error r' =>
      have herror : (Except.error r' : Checked β) = .error r := h
      cases herror
      exact hx r rfl
  | ok v => exact hf v r h

theorem refuses_expression (W : World) (cron : String) : Refuses (expression W cron) := by
  unfold expression
  split
  · exact refuses_errCtx _ _ _ _
  · split
    · exact refuses_errCtx _ _ _ _
    · exact refuses_pure ()

theorem refuses_zone (W : World) (timezone : Option String) : Refuses (zone W timezone) := by
  unfold zone
  split
  · exact refuses_pure none
  · split
    · exact refuses_pure _
    · exact refuses_errCtx _ _ _ _

theorem refuses_script (o : Outcomes) (scriptId : Int) : Refuses (script o scriptId) := by
  unfold script
  split
  · exact refuses_internal none
  · exact refuses_errCtx _ _ _ _
  · exact refuses_pure ()

theorem refuses_agent (agentId : Option String) : Refuses (agent agentId) := by
  unfold agent
  split
  · exact refuses_errCtx _ _ _ _
  · exact refuses_pure _

theorem refuses_resolveFrom (o : Outcomes) (files : List (String × String))
    (map : List (String × Value)) : Refuses (resolveFrom o files map) := by
  induction files generalizing map with
  | nil => exact refuses_pure map
  | cons p files ih =>
      rw [resolveFrom]
      split_ifs
      · exact refuses_errCtx _ _ _ _
      · split
        · exact refuses_internal none
        · exact refuses_errCtx _ _ _ _
        · exact ih _

theorem refuses_resolveFiles (o : Outcomes) (files : Option (List (String × String))) :
    Refuses (resolveFiles o files) := by
  unfold resolveFiles
  split
  · exact refuses_pure none
  · exact (refuses_resolveFrom o _ []).bind fun _ => refuses_pure _

/-- **Every refusal is an error.** -/
theorem refuses_check (W : World) (o : Outcomes) (a : ScheduleArgs) : Refuses (check W o a) := by
  have hscheduler : Refuses (scheduler W) := by
    unfold scheduler
    split_ifs
    · exact refuses_pure ()
    · exact refuses_errCtx _ _ _ _
  refine hscheduler.bind fun _ => (refuses_expression W a.cron).bind fun _ =>
    (refuses_zone W a.timezone).bind fun _ => (refuses_script o a.scriptId).bind fun _ =>
      (refuses_agent a.agentId).bind fun _ => (refuses_resolveFiles o a.files).bind fun _ => ?_
  exact refuses_pure _

/-! ## Errors -/

/-- What a read-back and a registration leave of the row that was inserted. -/
theorem clean_register_iff {done : Reply} (hdone : done.isError = false) :
    ((register o done (some (newRow W o a opts))).2.isError = true →
        Clean (register o done (some (newRow W o a opts))).1) ↔
      ¬ (o.getSchedule = false ∨
        o.afterRead = .untouched ∧ o.add = false ∧ o.disable.applied = false) := by
  have hnew : ¬ Clean (some (newRow W o a opts)) := not_clean_newRow
  cases hread : o.getSchedule with
  | false => simp [register, hread, hnew, Reply.isError]
  | true =>
      cases hadd : o.add with
      | true => simp [register, hread, hadd, hdone]
      | false =>
          cases hdisable : o.disable.applied with
          | true => simp [register, hread, hadd, hdisable, Clean]
          | false =>
              by_cases hafter : o.afterRead = .untouched
              · simp [register, hread, hadd, hdisable, hafter, Meanwhile.apply, hnew,
                  Reply.isError]
              · simp [register, hread, hadd, hdisable, hafter, clean_apply_of_ne hafter]

/-- **When an error leaves an enabled row behind.** -/
theorem schedule_clean_iff (W : World) (o : Outcomes) (a : ScheduleArgs) :
    ((schedule W o a).2.isError = true → Clean (schedule W o a).1) ↔
      ¬ ((∃ opts, check W o a = .ok opts) ∧ o.Leaves) := by
  cases hcheck : check W o a with
  | error reply =>
      have hrow : (schedule W o a).1 = none := by rw [schedule, hcheck]
      rw [hrow]
      refine iff_of_true (fun _ => clean_none) ?_
      rintro ⟨⟨_, h⟩, _⟩
      cases h
  | ok opts =>
      have hleaves : ((∃ opts', Except.ok opts = (.ok opts' : Checked ScheduleOpts)) ∧ o.Leaves) ↔
          o.Leaves := and_iff_right ⟨opts, rfl⟩
      rw [hleaves, schedule, hcheck]
      simp only
      by_cases happlied : o.insert.applied = true
      · by_cases hafter : o.afterInsert = .untouched
        · rw [if_pos happlied, hafter, Meanwhile.apply]
          by_cases hacked : o.insert.acked = true
          · rw [if_pos hacked, clean_register_iff (isError_scheduled W o a opts)]
            refine not_congr ⟨fun h => ⟨happlied, hafter, .inr h⟩, fun h => ?_⟩
            exact h.fault.resolve_left (by rw [hacked]; exact Bool.noConfusion)
          · -- the row is there, and the caller has its error
            rw [if_neg hacked]
            refine iff_of_false (fun h => not_clean_newRow (h rfl)) (not_not.mpr ?_)
            exact ⟨happlied, hafter, .inl (Bool.eq_false_iff.mpr hacked)⟩
        · have hclean := clean_apply_of_ne hafter
            (if o.insert.applied = true then some (newRow W o a opts) else none)
          refine iff_of_true (fun _ => ?_) fun h => hafter h.afterInsert
          split_ifs at hclean ⊢
          · exact clean_register hclean _
          · exact hclean
      · have hclean := clean_none.apply o.afterInsert
        refine iff_of_true (fun _ => ?_) fun h => happlied h.applied
        rw [if_neg happlied]
        split_ifs
        · exact clean_register hclean _
        · exact hclean

end Rows

/-- A daemon that takes every expression. -/
def permissive : World where
  run :=
    { crypto := ⟨id, fun _ => id, fun _ => "", fun _ => none, fun _ => true, fun _ _ _ => true,
        fun _ => none⟩
      plain := fun _ => true
      fromStr := fun _ => none }
  cron := true
  parseCron := fun _ => .ok ()
  fromStr := fun _ => none
  nextFire := fun _ _ => none

/-- A schedule every five minutes. -/
def everyFive : ScheduleArgs where
  scriptId := 1
  cron := "0 */5 * * * *"
  input := none
  agentId := none
  files := none
  captureOutput := none
  idempotency := none
  timezone := none

/-- The insert succeeds, and the read-back fails. -/
def unread : Outcomes where
  getScript := some true
  blobExists := fun _ => none
  insert := .ok
  id := 7
  afterInsert := .untouched
  getSchedule := false
  afterRead := .untouched
  add := true
  disable := .ok

/-- An error that leaves an enabled row behind: the row cannot be read back. -/
theorem schedule_not_clean : ¬ ∀ W o a,
    (schedule W o a).2.isError = true → Clean (schedule W o a).1 := by
  intro h
  have hcheck : check permissive unread everyFive = .ok ⟨none, none, false, false, none⟩ := by rfl
  have hleft : schedule permissive unread everyFive =
      (some (newRow permissive unread everyFive ⟨none, none, false, false, none⟩),
        .internal none) := by
    rw [schedule, hcheck]
    rfl
  have hclean := h permissive unread everyFive (by rw [hleft]; rfl)
  rw [hleft] at hclean
  exact not_clean_newRow hclean

end Dokan.Ports.ScheduleFaults
