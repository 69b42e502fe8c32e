import Dokan.Ports.RunLogs

/-!
# Following a run with `read_logs`

A call of `read_logs` reads the status, then the lines behind the cursor, then
the highest number, each at a moment of its own; the caller goes on with the
cursor of the last reply.  An error, or a reply that is lost, leaves the caller
where it was.  The result, the output files and the progress text of a reply are
left out.

## Main results

* `got_law` — the lines returned are the first of the stored ones, whatever
  happens.
* `log_cursor` — a terminal reply with nothing remaining is the last one, as long
  as no `finish_run` that took effect is answered with an error.
-/

namespace Dokan.Ports.ReadLogs

open Dokan.Verified
open Dokan.Verified.NumberedLog
open Dokan.Ports.RunRow (RunStatus)
open Dokan.Ports.PumpLogs (LogRow Text maxLogSeq)
open Dokan.Ports.RunLogs (Writer Event terminal FinishAnswered)

/-! ## The caller -/

/-- `limit.unwrap_or(200).clamp(1, 1000)`. -/
def clampLimit (limit : Option Int) : Nat := (max 1 (min 1000 (limit.getD 200))).toNat

/-- What a call replies, as far as it is modelled. -/
structure Reply where
  status : RunStatus
  lines : List LogRow
  nextCursor : Nat
  remaining : Nat

/-- The reply to a caller at `after` that has read the status and the lines. -/
def reply (after : Nat) (status : RunStatus) (lines : List LogRow) (maxSeq : Nat) : Reply where
  status
  lines
  nextCursor := cursor LogRow.seq lines after
  remaining := maxSeq - cursor LogRow.seq lines after

/-- The point a call has reached. -/
inductive Call
  | idle
  /-- before `run_status` -/
  | status (limit : Nat)
  /-- before `read_logs_after` -/
  | lines (limit : Nat) (st : RunStatus)
  /-- before `max_log_seq` -/
  | maxSeq (st : RunStatus) (rows : List LogRow)

structure Reader where
  cursor : Nat
  call : Call
  /-- all lines of all replies -/
  got : List LogRow
  /-- history: a reply was terminal with nothing remaining -/
  complete : Bool

def Reader.start : Reader := ⟨0, .idle, [], false⟩

/-- A reply arrives. -/
def Reader.receive (r : Reader) (reply : Reply) : Reader where
  cursor := reply.nextCursor
  call := .idle
  got := r.got ++ reply.lines
  complete := r.complete || (terminal reply.status && reply.remaining = 0)

/-- The next query of a call. -/
def Reader.query (r : Reader) (w : Writer) : Option Reader :=
  match r.call with
  | .idle => none
  | .status limit => some { r with call := .lines limit w.status }
  | .lines limit st =>
      some { r with call := .maxSeq st (readAfter LogRow.seq w.table.logs r.cursor limit) }
  | .maxSeq st rows => some (r.receive (reply r.cursor st rows (maxLogSeq w.table.logs)))

/-- An execution and a caller. -/
structure Sys where
  w : Writer
  r : Reader

inductive Label
  | exec (ev : Event)
  | readLogs (limit : Option Int)
  | query
  /-- a query fails, or the reply is lost -/
  | fail

def step (secrets : List Text) (secs : Nat) (s : Sys) : Label → Option Sys
  | .exec ev => (s.w.step secrets secs ev).map fun w => { s with w }
  | .readLogs limit =>
      match s.r.call with
      | .idle => some { s with r := { s.r with call := .status (clampLimit limit) } }
      | _ => none
  | .query => (s.r.query s.w).map fun r => { s with r }
  | .fail => some { s with r := { s.r with call := .idle } }

/-- Before an execution, on the rows the run has already. -/
def start (logs : List LogRow) : Sys := ⟨Writer.start logs, Reader.start⟩

/-- The stored lines, in the order of their numbers. -/
def inOrder (logs : List LogRow) : List LogRow := logs.mergeSort fun r r' => r.seq ≤ r'.seq

/-- What the caller has are the first lines, and all of them if it was told so. -/
def Law (s : Sys) : Prop :=
  s.r.got <+: inOrder s.w.table.logs ∧
    (s.r.complete = true → s.r.got = inOrder s.w.table.logs)

def Answered (s : Sys) : Label → Prop
  | .exec ev => FinishAnswered s.w ev
  | _ => True

/-! ## The lines that were returned -/

/-- The caller has the first lines, and is about to get the next ones. -/
structure Inv (secrets : List Text) (s : Sys) : Prop where
  writer : RunLogs.Inv secrets s.w
  got : s.r.got <+: s.w.table.logs
  cursor : s.r.cursor = s.r.got.length
  call : ∀ st rows, s.r.call = .maxSeq st rows → rows <+: s.w.table.logs.drop s.r.cursor

section Steps

variable {secrets : List Text} {secs : Nat} {s s' : Sys} {a : Label}

theorem inOrder_eq {logs : List LogRow} (h : Numbered LogRow.seq logs) : inOrder logs = logs := by
  refine List.mergeSort_of_pairwise (h.pairwise.imp fun hlt => ?_)
  exact decide_eq_true (Nat.le_of_lt hlt)

theorem inv_start {logs : List LogRow} (hlogs : Numbered LogRow.seq logs) :
    Inv secrets (start logs) where
  writer := ⟨hlogs, trivial⟩
  got := List.nil_prefix
  cursor := rfl
  call := by rintro st rows ⟨⟩

/-- A reply arrives. -/
theorem Inv.receive (hI : Inv secrets s) {st : RunStatus} {rows : List LogRow}
    (hcall : s.r.call = .maxSeq st rows) (maxSeq : Nat) :
    (s.r.receive (reply s.r.cursor st rows maxSeq)).got <+: s.w.table.logs ∧
      (reply s.r.cursor st rows maxSeq).nextCursor = (s.r.got ++ rows).length := by
  have hrows := hI.call st rows hcall
  show s.r.got ++ rows <+: s.w.table.logs ∧ NumberedLog.cursor LogRow.seq rows s.r.cursor = _
  rw [hI.cursor] at hrows ⊢
  exact NumberedLog.next hI.writer.numbered hI.got hrows

/-- **One step** of the execution or of a call. -/
theorem Inv.step (hI : Inv secrets s) (h : step secrets secs s a = some s') : Inv secrets s' := by
  cases a with
  | exec ev =>
      obtain ⟨w, hw, rfl⟩ := Option.map_eq_some_iff.mp h
      obtain ⟨hwriter, hgrow⟩ := hI.writer.step hw
      refine ⟨hwriter, hI.got.trans hgrow, hI.cursor, fun st rows hcall => ?_⟩
      exact (hI.call st rows hcall).trans (hgrow.drop _)
  | readLogs limit =>
      simp only [ReadLogs.step] at h
      split at h
      · cases h
        exact ⟨hI.writer, hI.got, hI.cursor, by rintro st rows ⟨⟩⟩
      · cases h
  | query =>
      obtain ⟨r, hr, rfl⟩ := Option.map_eq_some_iff.mp h
      unfold Reader.query at hr
      split at hr
      · cases hr
      · cases hr
        exact ⟨hI.writer, hI.got, hI.cursor, by rintro st rows ⟨⟩⟩
      · cases hr
        refine ⟨hI.writer, hI.got, hI.cursor, ?_⟩
        rintro st rows ⟨⟩
        exact readAfter_next hI.writer.numbered
      · next st rows hcall =>
          cases hr
          obtain ⟨hgot, hcursor⟩ := hI.receive hcall (maxLogSeq s.w.table.logs)
          exact ⟨hI.writer, hgot, hcursor, by rintro st rows ⟨⟩⟩
  | fail =>
      cases h
      exact ⟨hI.writer, hI.got, hI.cursor, by rintro st rows ⟨⟩⟩

/-- **No gap, no duplicate**, whatever the statements are answered. -/
theorem got_law {logs : List LogRow} {l : List Label} (hlogs : Numbered LogRow.seq logs)
    (hrun : Machine.run (step secrets secs) (start logs) l = some s) :
    s.r.got <+: inOrder s.w.table.logs := by
  have hI : Inv secrets s :=
    Machine.inv_run (fun _ _ _ hI _ h => hI.step h) (inv_start hlogs)
      (Machine.along_of_forall (P := fun _ => True) fun _ _ => trivial) hrun
  rw [inOrder_eq hI.writer.numbered]
  exact hI.got

/-! ## The last line -/

/-- Once the status is terminal nothing is written; a caller that was told so has
everything. -/
structure EndInv (secrets : List Text) (s : Sys) : Prop extends Inv secrets s where
  returned : terminal s.w.status = true → s.w.pc = .returned
  seen : ∀ limit st, s.r.call = .lines limit st → terminal st = true → terminal s.w.status = true
  read : ∀ st rows, s.r.call = .maxSeq st rows → terminal st = true → terminal s.w.status = true
  complete : s.r.complete = true → terminal s.w.status = true ∧ s.r.got = s.w.table.logs

theorem endInv_start {logs : List LogRow} (hlogs : Numbered LogRow.seq logs) :
    EndInv secrets (start logs) where
  toInv := inv_start hlogs
  returned := by rintro ⟨⟩
  seen := by rintro limit st ⟨⟩
  read := by rintro st rows ⟨⟩
  complete := by rintro ⟨⟩

/-- **One step**, with `finish_run` answered as it took effect. -/
theorem EndInv.step (hI : EndInv secrets s) (hC : Answered s a)
    (h : step secrets secs s a = some s') : EndInv secrets s' := by
  have hInv := hI.toInv.step h
  cases a with
  | exec ev =>
      obtain ⟨w, hw, rfl⟩ := Option.map_eq_some_iff.mp h
      -- an execution that writes is not terminal
      have hrunning : terminal s.w.status ≠ true := by
        intro hterminal
        rw [RunLogs.step_returned (hI.returned hterminal)] at hw
        cases hw
      refine ⟨hInv, RunLogs.returned_of_terminal hI.returned hC hw, ?_, ?_, ?_⟩
      · exact fun limit st hcall ht => absurd (hI.seen limit st hcall ht) hrunning
      · exact fun st rows hcall ht => absurd (hI.read st rows hcall ht) hrunning
      · exact fun hcomplete => absurd (hI.complete hcomplete).1 hrunning
  | readLogs limit =>
      simp only [ReadLogs.step] at h
      split at h
      · cases h
        exact ⟨hInv, hI.returned, by rintro limit st ⟨⟩, by rintro st rows ⟨⟩, hI.complete⟩
      · cases h
  | query =>
      obtain ⟨r, hr, rfl⟩ := Option.map_eq_some_iff.mp h
      unfold Reader.query at hr
      split at hr
      · cases hr
      · cases hr
        refine ⟨hInv, hI.returned, ?_, by rintro st rows ⟨⟩, hI.complete⟩
        rintro limit st ⟨⟩ ht
        exact ht
      · next limit st hcall =>
          cases hr
          refine ⟨hInv, hI.returned, by rintro limit st ⟨⟩, ?_, hI.complete⟩
          rintro st rows ⟨⟩ ht
          exact hI.seen limit _ hcall ht
      · next st rows hcall =>
          cases hr
          refine ⟨hInv, hI.returned, by rintro limit st ⟨⟩, by rintro st rows ⟨⟩, ?_⟩
          intro hcomplete
          rcases Bool.or_eq_true _ _ ▸ hcomplete with hbefore | hnow
          · -- nothing is left to append
            obtain ⟨hterminal, hall⟩ := hI.complete hbefore
            refine ⟨hterminal, ?_⟩
            have hgot := hInv.got.length_le
            have hrows : rows = [] := by
              have hlen := (hI.call st rows hcall).length_le
              rw [hI.cursor, hall, List.drop_length] at hlen
              exact List.eq_nil_of_length_eq_zero (Nat.le_zero.mp hlen)
            subst hrows
            show s.r.got ++ [] = s.w.table.logs
            rw [List.append_nil, hall]
          · obtain ⟨ht, hremaining⟩ := Bool.and_eq_true _ _ ▸ hnow
            obtain ⟨hgot, hcursor⟩ := hI.receive hcall (maxLogSeq s.w.table.logs)
            refine ⟨hI.read st rows hcall ht, eq_of_maxSeq_le hI.writer.numbered hgot ?_⟩
            have hzero : maxLogSeq s.w.table.logs -
                (reply s.r.cursor st rows (maxLogSeq s.w.table.logs)).nextCursor = 0 :=
              of_decide_eq_true hremaining
            rw [hcursor] at hzero
            exact Nat.le_of_sub_eq_zero hzero
  | fail =>
      cases h
      exact ⟨hInv, hI.returned, by rintro limit st ⟨⟩, by rintro st rows ⟨⟩, hI.complete⟩

end Steps

/-- **The log cursor law.**  For one execution of a run and a caller that follows
it with any limits, interleaved in any way: the lines returned are the first of
the stored ones, and all of them once a reply was terminal with nothing
remaining, as long as no `finish_run` that took effect is answered with an error
(but for the one of an internal error, after which nothing is written). -/
theorem log_cursor {secrets : List Text} {secs : Nat} {logs : List LogRow} {l : List Label}
    {s : Sys} (hlogs : Numbered LogRow.seq logs)
    (hrun : Machine.run (step secrets secs) (start logs) l = some s)
    (hC : Machine.Along (step secrets secs) Answered (start logs) l) : Law s := by
  have hI : EndInv secrets s :=
    Machine.inv_run (fun _ _ _ hI hC h => hI.step hC h) (endInv_start hlogs) hC hrun
  refine ⟨got_law hlogs hrun, fun hcomplete => ?_⟩
  rw [inOrder_eq hI.writer.numbered]
  exact (hI.complete hcomplete).2

/-! ## The last line of a run -/

/-- A run without a container, and a caller that asks when it is over. -/
def noContainer : List Label :=
  [ .exec (.failed "no container"), .exec (.sql .ok), .exec (.sql .ok), .exec (.sql .ok)
  , .readLogs none, .query, .query, .query ]

/-- `log_cursor` for that run. -/
theorem log_cursor_noContainer :
    ∃ s, Machine.run (step [] 300) (start []) noContainer = some s ∧ Law s := by
  have hC : Machine.Along (step [] 300) Answered (start []) noContainer := by
    refine Machine.along_of_mem fun a ha => ?_
    fin_cases ha <;> exact fun _ => trivial
  exact ⟨_, rfl, log_cursor block_nil rfl hC⟩

/-- The run exits, and the answer to its `finish_run` is lost; the caller is told
that it succeeded with nothing remaining, and then the error is logged. -/
def finishLost : List Label :=
  [ .exec .started, .exec (.sql .ok), .exec .streamEnd, .exec (.exited (some 0))
  , .exec (.sql (.lost "connection reset"))
  , .readLogs none, .query, .query, .query
  , .exec (.sql .ok), .exec (.sql .ok) ]

/-- The caller has missed the last line. -/
theorem not_log_cursor :
    ¬ ∀ (secrets : List Text) (secs : Nat) (logs : List LogRow) (l : List Label) (s : Sys),
      Numbered LogRow.seq logs →
      Machine.run (step secrets secs) (start logs) l = some s → Law s := by
  intro h
  have hmissed : ∃ s, Machine.run (step [] 300) (start []) finishLost = some s ∧
      s.r.complete = true ∧ s.r.got = [] ∧ s.w.table.logs.length = 1 := by
    refine ⟨_, rfl, ?_, ?_, rfl⟩
    · show (terminal .succeeded &&
        decide (0 - cursor LogRow.seq (readAfter LogRow.seq [] 0 200) 0 = 0)) = true
      rw [Nat.zero_sub]
      rfl
    · show readAfter LogRow.seq [] 0 200 = []
      rw [readAfter_eq block_nil]
      rfl
  obtain ⟨s, hrun, hcomplete, hgot, hstored⟩ := hmissed
  have hall := (h [] 300 [] finishLost s block_nil hrun).2 hcomplete
  have hlen : s.r.got.length = s.w.table.logs.length := by
    rw [hall, inOrder, List.length_mergeSort]
  rw [hgot, hstored] at hlen
  cases hlen

end Dokan.Ports.ReadLogs
