import Dokan.Verified.Machine
import Dokan.Verified.NumberedLog
import Dokan.Ports.ExecJob
import Dokan.Ports.PumpStatements

/-!
# What one execution writes to the log of its run

One `Executor::run`, as far as it writes lines and the status: the log pump
sends batches; the time limit may cut it off in the middle of a statement; a
timeout, a vanished container and an internal error each add a line of their own
behind the highest stored number; then the status becomes terminal.  A statement
takes effect, fails, or takes effect and is answered with an error.

## Main results

* `Inv.step` — the stored lines are numbered from 1 on, without a gap, and lines
  are only ever added behind the others.
* `returned_of_terminal` — a run that is terminal gets no more lines, if no
  `finish_run` that took effect was answered with an error.
-/

namespace Dokan.Ports.RunLogs

open Dokan.Verified
open Dokan.Verified.NumberedLog
open Dokan.Ports.RunRow (RunStatus)
open Dokan.Ports.ExecJob (exitStatus)
open Dokan.Ports.PumpLogs

/-! ## The execution -/

/-- What ends an execution with a line of dokan's own. -/
inductive Abort
  | timeout
  | vanished
  | internal (msg : String)

/-- What `finish_run` is called for. -/
inductive Ending
  | exit (code : Int)
  | abort (a : Abort)

def Ending.status : Ending → RunStatus
  | .exit code => exitStatus code
  | .abort _ => .failed

/-- The line, under a limit of so many seconds. -/
def Abort.line (limit : Nat) : Abort → String
  | .timeout => "dokan: timeout after " ++ toString limit ++ " s, container killed"
  | .vanished => "dokan: container vanished before exit code; marking failed"
  | .internal msg => "dokan: " ++ msg

/-- The point an execution has reached. -/
inductive Pc
  /-- before `pump_logs` -/
  | start
  /-- in `pump_logs`, before `max_log_seq` -/
  | lastSeq
  /-- in the loop of `pump_logs`, with statements to send; the stream has ended -/
  | pump (f : Feed) (todo : List Statement) (ended : Bool)
  /-- before the `max_log_seq` for dokan's own line -/
  | noteSeq (a : Abort)
  /-- before its `append_log` -/
  | note (a : Abort) (seq : Nat)
  | finish (e : Ending)
  /-- lines and status are written for the last time -/
  | returned

/-- An execution and what it writes. -/
structure Writer where
  table : Table
  status : RunStatus
  pc : Pc

/-- How a statement ends; an error has a text. -/
inductive Outcome
  | ok
  | err (msg : String)
  /-- it took effect, its answer was an error -/
  | lost (msg : String)

/-- One statement: the table after it, and the error. -/
def send (t : Table) (st : Statement) : Outcome → Table × Option String
  | .ok =>
      match t.exec st with
      | .ok t' => (t', none)
      | .error e => (t, some e)
  | .err msg => (t, some msg)
  | .lost msg =>
      match t.exec st with
      | .ok t' => (t', some msg)
      | .error _ => (t, some msg)

/-- What happens next. -/
inductive Event
  /-- `start_exec` went through -/
  | started
  /-- an error that is not the database's -/
  | failed (msg : String)
  | chunk (c : Chunk)
  /-- the end of the stream, or 404 -/
  | streamEnd
  /-- the limit is reached; the statement on its way took effect -/
  | timeout (took : Bool)
  /-- `inspect_exec` answered -/
  | exited (code : Option Int)
  /-- `inspect_exec` answered 404 -/
  | gone
  | sql (out : Outcome)

def Writer.goto (w : Writer) (pc : Pc) : Writer := { w with pc }

/-- After a statement of the pump: a failed batch ends it, a failed progress text
does not. -/
def afterSend (f : Feed) (todo : List Statement) (ended : Bool) : Statement → Option String → Pc
  | .appendLogsBatch _, some msg => .noteSeq (.internal msg)
  | _, _ => .pump f todo ended

/-- After an error at the end of an execution. -/
def Abort.failed : Abort → String → Pc
  | .internal msg, _ => .finish (.abort (.internal msg))
  | _, msg => .noteSeq (.internal msg)

/-- After `append_log`. -/
def Abort.noted (a : Abort) : Option String → Pc
  | none => .finish (.abort a)
  | some msg => a.failed msg

/-- After a `finish_run` that was answered with an error. -/
def Ending.failed : Ending → String → Pc
  | .abort (.internal _), _ => .returned
  | _, msg => .noteSeq (.internal msg)

/-- `Db::finish_run`. -/
def Writer.finish (w : Writer) (e : Ending) : Writer :=
  if w.status = .canceled then w else { w with status := e.status }

section Step

variable (secrets : List Text) (limit : Nat)

/-- The feed after the last chunk. -/
def lastFeed (f : Feed) : Feed := ((f.tail secrets .stdout).tail secrets .stderr).flush

/-- The next step of an execution. -/
def Writer.step (w : Writer) (ev : Event) : Option Writer :=
  match w.pc, ev with
  | .start, .started => some (w.goto .lastSeq)
  | .start, .failed msg => some (w.goto (.noteSeq (.internal msg)))
  | .lastSeq, .sql .ok => some (w.goto (.pump (Feed.start w.table.logs) [] false))
  -- `unwrap_or(0)`
  | .lastSeq, .sql _ => some (w.goto (.pump (Feed.start []) [] false))
  | .lastSeq, .timeout _ => some (w.goto (.noteSeq .timeout))
  | .pump f [] false, .chunk c =>
      let f' := f.chunk secrets c
      some (w.goto (.pump f' (f'.sent.drop f.sent.length) false))
  | .pump f [] false, .streamEnd =>
      let f' := lastFeed secrets f
      some (w.goto (.pump f' (f'.sent.drop f.sent.length) true))
  | .pump _ [] false, .failed msg => some (w.goto (.noteSeq (.internal ("log stream: " ++ msg))))
  | .pump _ [] false, .timeout _ => some (w.goto (.noteSeq .timeout))
  | .pump f (st :: todo) ended, .sql out =>
      let (table, e) := send w.table st out
      some { w with table, pc := afterSend f todo ended st e }
  | .pump _ (st :: _) _, .timeout took =>
      let table := if took then (send w.table st .ok).1 else w.table
      some { w with table, pc := .noteSeq .timeout }
  | .pump _ [] true, .exited code => some (w.goto (.finish (.exit (code.getD 0))))
  | .pump _ [] true, .gone => some (w.goto (.noteSeq .vanished))
  | .pump _ [] true, .failed msg => some (w.goto (.noteSeq (.internal msg)))
  | .noteSeq a, .sql .ok => some (w.goto (.note a (maxLogSeq w.table.logs + 1)))
  | .noteSeq a, .sql _ => some (w.goto (.note a 1))
  | .note a seq, .sql out =>
      let row : LogRow := ⟨seq, .stderr, (a.line limit).toList⟩
      let (table, e) := send w.table (.appendLogsBatch [row]) out
      some { w with table, pc := a.noted e }
  | .finish e, .sql .ok => some ((w.finish e).goto .returned)
  | .finish e, .sql (.err msg) => some (w.goto (e.failed msg))
  | .finish e, .sql (.lost msg) => some ((w.finish e).goto (e.failed msg))
  | _, _ => none

end Step

/-- Before an execution, on the rows the run has already. -/
def Writer.start (logs : List LogRow) : Writer where
  table := ⟨logs, none⟩
  status := .running
  pc := .start

/-! ## The numbers -/

theorem block_number (n : Nat) (l : Lines) : Block LogRow.seq n (number n l) := by
  induction l generalizing n with
  | nil => exact block_nil
  | cons x l ih => exact block_cons.mpr ⟨rfl, ih (n + 1)⟩

theorem maxLogSeq_eq {logs : List LogRow} (h : Numbered LogRow.seq logs) :
    maxLogSeq logs = logs.length := by
  have hmax : maxLogSeq logs = 0 + logs.length := foldl_max h
  rw [hmax, Nat.zero_add]

theorem flush_batch (f : Feed) : f.flush.batch = [] := by
  unfold Feed.flush
  split
  · next hempty => exact List.isEmpty_iff.mp hempty
  · rfl

/-- What an execution goes on to write fits behind `n` lines. -/
def Fits (secrets : List Text) (n : Nat) : Pc → Prop
  | .pump f todo _ =>
      ∃ m l sent, Spec secrets m f l ∧ f.batch = [] ∧ f.sent = sent ++ todo ∧
        m + (rowsOf sent).length ≤ n
  | .note _ seq => ∃ m, seq = m + 1 ∧ m ≤ n
  | _ => True

/-- The stored lines are numbered from 1 on, and so will be the next ones. -/
structure Inv (secrets : List Text) (w : Writer) : Prop where
  numbered : Numbered LogRow.seq w.table.logs
  fits : Fits secrets w.table.logs.length w.pc

section Numbers

variable {secrets : List Text} {limit : Nat} {w w' : Writer} {ev : Event} {t : Table}
  {st : Statement} {out : Outcome} {m : Nat}

/-- A statement inserts its rows, or leaves the table alone; without an error it
has inserted them. -/
theorem send_cases (t : Table) (st : Statement) (out : Outcome) :
    (send t st out).1.logs = (rowsOf [st]).foldl (Rows.insertNew LogRow.seq) t.logs ∨
      (send t st out).1.logs = t.logs ∧ (send t st out).2 ≠ none := by
  cases out with
  | ok =>
      unfold send
      cases hexec : t.exec st with
      | ok t' => exact .inl (exec_ok hexec).2.1
      | error e => exact .inr ⟨rfl, Option.some_ne_none e⟩
  | err msg => exact .inr ⟨rfl, Option.some_ne_none msg⟩
  | lost msg =>
      unfold send
      cases hexec : t.exec st with
      | ok t' => exact .inl (exec_ok hexec).2.1
      | error e => exact .inr ⟨rfl, Option.some_ne_none msg⟩

/-- Sending rows that fit keeps the numbers, and adds at the end. -/
theorem send_numbered (ht : Numbered LogRow.seq t.logs) (hrows : Block LogRow.seq m (rowsOf [st]))
    (hm : m ≤ t.logs.length) (out : Outcome) :
    Numbered LogRow.seq (send t st out).1.logs ∧ t.logs <+: (send t st out).1.logs := by
  rcases send_cases t st out with hlogs | ⟨hlogs, _⟩
  · rw [hlogs]
    refine ⟨numbered_insert ht hrows hm, ?_⟩
    rw [foldl_insertNew ht hrows hm]
    exact List.prefix_append _ _
  · rw [hlogs]
    exact ⟨ht, List.prefix_refl _⟩

/-- The rows of the next statement of the pump. -/
theorem next_rows {f : Feed} {l : Lines} {sent todo : List Statement}
    (hspec : Spec secrets m f l) (hbatch : f.batch = []) (hsent : f.sent = sent ++ st :: todo) :
    Block LogRow.seq (m + (rowsOf sent).length) (rowsOf [st]) := by
  have hrows := hspec.rows
  rw [hbatch, List.append_nil, hsent, List.append_cons, rowsOf_append, rowsOf_append] at hrows
  have hblock := block_number m (l.filterMap (loggedText secrets))
  rw [← hrows, block_append, block_append] at hblock
  exact hblock.1.2

/-- A feed that goes on sends more. -/
theorem fits_feed {n : Nat} {f f' : Feed} {ended : Bool}
    (hfits : ∃ m l sent, Spec secrets m f l ∧ f.batch = [] ∧ f.sent = sent ++ [] ∧
      m + (rowsOf sent).length ≤ n)
    (hspec : ∀ m l, Spec secrets m f l → ∃ l', Spec secrets m f' l') (hbatch : f'.batch = [])
    (hsent : f.sent <+: f'.sent) :
    Fits secrets n (.pump f' (f'.sent.drop f.sent.length) ended) := by
  obtain ⟨m, l, sent, hold, _, hall, hle⟩ := hfits
  rw [List.append_nil] at hall
  obtain ⟨l', hnew⟩ := hspec m l hold
  obtain ⟨rest, hrest⟩ := hsent
  refine ⟨m, l', sent, hnew, hbatch, ?_, hle⟩
  rw [← hrest, List.drop_left, hall]

theorem Inv.goto (hI : Inv secrets w) {pc : Pc} (hfits : Fits secrets w.table.logs.length pc) :
    Inv secrets (w.goto pc) ∧ w.table.logs <+: (w.goto pc).table.logs :=
  ⟨⟨hI.numbered, hfits⟩, List.prefix_refl _⟩

theorem Inv.finish (hI : Inv secrets w) (e : Ending) : Inv secrets (w.finish e) := by
  unfold Writer.finish
  split_ifs
  · exact hI
  · exact ⟨hI.numbered, hI.fits⟩

theorem finish_table (w : Writer) (e : Ending) : (w.finish e).table = w.table := by
  unfold Writer.finish
  split_ifs <;> rfl

theorem fits_abortFailed (n : Nat) (a : Abort) (msg : String) : Fits secrets n (a.failed msg) := by
  cases a <;> trivial

theorem fits_endingFailed (n : Nat) (e : Ending) (msg : String) :
    Fits secrets n (e.failed msg) := by
  cases e with
  | exit code => trivial
  | abort a => cases a <;> trivial

theorem fits_noted (n : Nat) (a : Abort) (e : Option String) : Fits secrets n (a.noted e) := by
  cases e with
  | none => trivial
  | some msg => exact fits_abortFailed n a msg

/-- A batch of the pump. -/
theorem Inv.pump (hI : Inv secrets w) {f : Feed} {todo : List Statement} {ended : Bool}
    (hpc : w.pc = .pump f (st :: todo) ended) (out : Outcome) :
    Inv secrets { w with
        table := (send w.table st out).1
        pc := afterSend f todo ended st (send w.table st out).2 } ∧
      w.table.logs <+: (send w.table st out).1.logs := by
  have hfits := hI.fits
  rw [hpc] at hfits
  obtain ⟨m, l, sent, hspec, hbatch, hsent, hle⟩ := hfits
  have hrows := next_rows hspec hbatch hsent
  obtain ⟨hnumbered, hgrow⟩ := send_numbered hI.numbered hrows hle out
  refine ⟨⟨hnumbered, ?_⟩, hgrow⟩
  -- if the pump goes on, the rows of the statement are stored
  have hgoes : (rowsOf [st] = [] ∨ (send w.table st out).2 = none) →
      Fits secrets (send w.table st out).1.logs.length (.pump f todo ended) := by
    intro hcase
    refine ⟨m, l, sent ++ [st], hspec, hbatch, ?_, ?_⟩
    · rw [hsent, List.append_cons]
    · rw [rowsOf_append, List.length_append, ← Nat.add_assoc]
      rcases hcase with hnone | hok
      · rw [hnone]
        exact Nat.le_trans hle hgrow.length_le
      · rcases send_cases w.table st out with hlogs | ⟨_, herr⟩
        · rw [hlogs]
          exact le_length_insert hI.numbered hrows hle
        · exact absurd hok herr
  cases st with
  | updateRunProgress text => exact hgoes (.inl rfl)
  | appendLogsBatch rows =>
      cases herr : (send w.table (.appendLogsBatch rows) out).2 with
      | none => exact hgoes (.inr herr)
      | some msg => trivial

/-- A line of dokan's own. -/
theorem Inv.note (hI : Inv secrets w) {a : Abort} {seq : Nat} (hpc : w.pc = .note a seq)
    (line : Text) (out : Outcome) :
    Numbered LogRow.seq (send w.table (.appendLogsBatch [⟨seq, .stderr, line⟩]) out).1.logs ∧
      w.table.logs <+: (send w.table (.appendLogsBatch [⟨seq, .stderr, line⟩]) out).1.logs := by
  have hfits := hI.fits
  rw [hpc] at hfits
  obtain ⟨m, rfl, hle⟩ := hfits
  have hrows : Block LogRow.seq m (rowsOf [.appendLogsBatch [⟨m + 1, .stderr, line⟩]]) :=
    block_cons.mpr ⟨rfl, block_nil⟩
  exact send_numbered hI.numbered hrows hle out

/-- **One step of an execution** keeps the numbers, and adds lines behind the
others. -/
theorem Inv.step (hI : Inv secrets w) (h : w.step secrets limit ev = some w') :
    Inv secrets w' ∧ w.table.logs <+: w'.table.logs := by
  unfold Writer.step at h
  split at h
  case h_1 => cases h; exact hI.goto trivial
  case h_2 => cases h; exact hI.goto trivial
  case h_3 =>
      cases h
      refine hI.goto ⟨maxLogSeq w.table.logs, [], [], ⟨rfl, rfl, rfl, rfl⟩, rfl, rfl, ?_⟩
      exact Nat.le_of_eq (maxLogSeq_eq hI.numbered)
  case h_4 =>
      cases h
      exact hI.goto ⟨0, [], [], ⟨rfl, rfl, rfl, rfl⟩, rfl, rfl, Nat.zero_le _⟩
  case h_5 => cases h; exact hI.goto trivial
  case h_6 f c hpc =>
      cases h
      have hfits := hI.fits
      rw [hpc] at hfits
      refine hI.goto (fits_feed hfits (fun m l hspec => ⟨_, hspec.chunk c⟩) ?_ (chunk_sent f c))
      exact flush_batch _
  case h_7 f hpc =>
      cases h
      have hfits := hI.fits
      rw [hpc] at hfits
      refine hI.goto (fits_feed hfits (fun m l hspec => ?_) (flush_batch _) ?_)
      · exact ⟨_, ((hspec.tail .stdout).tail .stderr).flush⟩
      · exact ((tail_sent f .stdout).trans (tail_sent _ .stderr)).trans (flush_sent _)
  case h_8 => cases h; exact hI.goto trivial
  case h_9 => cases h; exact hI.goto trivial
  case h_10 f st todo ended out hpc =>
      cases h
      exact hI.pump hpc out
  case h_11 f st todo ended took hpc =>
      cases h
      cases took with
      | true =>
          obtain ⟨hpump, hgrow⟩ := hI.pump hpc .ok
          exact ⟨⟨hpump.numbered, trivial⟩, hgrow⟩
      | false => exact ⟨⟨hI.numbered, trivial⟩, List.prefix_refl _⟩
  case h_12 => cases h; exact hI.goto trivial
  case h_13 => cases h; exact hI.goto trivial
  case h_14 => cases h; exact hI.goto trivial
  case h_15 =>
      cases h
      exact hI.goto ⟨_, rfl, Nat.le_of_eq (maxLogSeq_eq hI.numbered)⟩
  case h_16 => cases h; exact hI.goto ⟨0, rfl, Nat.zero_le _⟩
  case h_17 a seq out hpc =>
      cases h
      obtain ⟨hnumbered, hgrow⟩ := hI.note hpc (a.line limit).toList out
      exact ⟨⟨hnumbered, fits_noted _ a _⟩, hgrow⟩
  case h_18 e hpc =>
      cases h
      refine ⟨⟨(hI.finish e).numbered, trivial⟩, ?_⟩
      show w.table.logs <+: (w.finish e).table.logs
      rw [finish_table]
  case h_19 e msg hpc => cases h; exact hI.goto (fits_endingFailed _ e msg)
  case h_20 e msg hpc =>
      cases h
      refine ⟨⟨(hI.finish e).numbered, fits_endingFailed _ e msg⟩, ?_⟩
      show w.table.logs <+: (w.finish e).table.logs
      rw [finish_table]
  case h_21 => cases h

end Numbers

/-! ## The end -/

/-- Nothing is written any more. -/
def terminal : RunStatus → Bool
  | .succeeded | .failed | .canceled => true
  | .pending | .running => false

/-- No `finish_run` that took effect is answered with an error, but for the last
thing an execution does. -/
def FinishAnswered (w : Writer) : Event → Prop
  | .sql (.lost _) => ∀ e, w.pc = .finish e → ∃ msg, e = .abort (.internal msg)
  | _ => True

section End

variable {secrets : List Text} {limit : Nat} {w w' : Writer} {ev : Event}

theorem step_returned (hpc : w.pc = .returned) : w.step secrets limit ev = none := by
  unfold Writer.step
  rw [hpc]

/-- The status is written by `finish_run` alone. -/
theorem status_step (h : w.step secrets limit ev = some w') :
    w'.status = w.status ∨
      ∃ e, w.pc = .finish e ∧ (ev = .sql .ok ∨ ∃ msg, ev = .sql (.lost msg)) := by
  unfold Writer.step at h
  split at h
  case h_18 e hpc => exact .inr ⟨e, hpc, .inl rfl⟩
  case h_20 e msg hpc => exact .inr ⟨e, hpc, .inr ⟨msg, rfl⟩⟩
  all_goals first
    | cases h; exact .inl rfl
    | cases h

/-- **A terminal run gets no more lines**: once the status is terminal the
execution has returned. -/
theorem returned_of_terminal (hterminal : terminal w.status = true → w.pc = .returned)
    (hC : FinishAnswered w ev) (h : w.step secrets limit ev = some w')
    (hw' : terminal w'.status = true) : w'.pc = .returned := by
  rcases status_step h with hsame | ⟨e, hpc, rfl | ⟨msg, rfl⟩⟩
  · rw [hsame] at hw'
    rw [step_returned (hterminal hw')] at h
    cases h
  · unfold Writer.step at h
    rw [hpc] at h
    cases h
    rfl
  · obtain ⟨msg', rfl⟩ := hC e hpc
    unfold Writer.step at h
    rw [hpc] at h
    cases h
    rfl

end End

end Dokan.Ports.RunLogs
