import Dokan.Ports.RunLogs

/-!
# The live tail of a run

A poll of `run_stream` reads at most 500 lines behind its cursor, then the
status; the stream ends with the first poll that reads a terminal status.  A
lines query that fails counts as no lines, a status query that fails as no
status.  Beside the execution, the run may be canceled, and it may be requeued
and executed again, one execution at a time.

## Main results

* `Inv.step` — the events have the first stored lines, each once.
* `tail_complete_iff` — the streams that end with every line the run had when it
  became terminal are those whose last poll could read what was left of them.
-/

namespace Dokan.Ports.RunStream

open Dokan.Verified
open Dokan.Verified.NumberedLog
open Dokan.Ports.RunRow (RunStatus)
open Dokan.Ports.PumpLogs (LogRow Text)
open Dokan.Ports.RunLogs (Writer Event terminal)

/-! ## The stream -/

/-- The lines one poll reads at most. -/
def pollLimit : Nat := 500

/-- The point a poll has reached. -/
inductive Poll
  /-- before `read_logs_after` -/
  | lines
  /-- before `run_status`; history: how many lines were stored when they were
  read, unless the query failed -/
  | status (rows : List LogRow) (stored : Option Nat)
  /-- the stream has ended; history: the lines of the run when it became
  terminal -/
  | ended (final : List LogRow)

structure Stream where
  cursor : Nat
  poll : Poll
  /-- the lines of all events -/
  got : List LogRow

/-- A run and a stream. -/
structure Sys where
  w : Writer
  /-- history: the lines stored when the run became terminal -/
  final : Option (List LogRow)
  r : Stream

/-- The history after a write. -/
def Sys.write (s : Sys) (w : Writer) : Sys :=
  { s with
    w
    final := if terminal w.status then some (s.final.getD w.table.logs) else none }

/-- The poll reads the lines. -/
def Sys.readLines (s : Sys) (answered : Bool) : Stream :=
  if answered then
    { s.r with
      poll := .status (readAfter LogRow.seq s.w.table.logs s.r.cursor pollLimit)
        (some s.w.table.logs.length) }
  else { s.r with poll := .status [] none }

/-- The poll reads the status and sends its event. -/
def Sys.readStatus (s : Sys) (rows : List LogRow) (answered : Bool) : Stream where
  cursor := cursor LogRow.seq rows s.r.cursor
  poll := if answered && terminal s.w.status then .ended (s.final.getD []) else .lines
  got := s.r.got ++ rows

inductive Label
  | exec (ev : Event)
  /-- `cancel_run` -/
  | cancel
  /-- `requeue` -/
  | requeue
  /-- the run is claimed, and nobody else executes it -/
  | claim
  | lines (answered : Bool)
  | status (answered : Bool)

def step (secrets : List Text) (secs : Nat) (s : Sys) : Label → Option Sys
  | .exec ev => (s.w.step secrets secs ev).map s.write
  | .cancel =>
      some (s.write (if s.w.status = .succeeded then s.w else { s.w with status := .canceled }))
  | .requeue => some (s.write { s.w with status := .pending })
  | .claim =>
      if s.w.status = .pending then some (s.write { s.w with status := .running, pc := .start })
      else none
  | .lines answered =>
      match s.r.poll with
      | .lines => some { s with r := s.readLines answered }
      | _ => none
  | .status answered =>
      match s.r.poll with
      | .status rows _ => some { s with r := s.readStatus rows answered }
      | _ => none

/-- Before an execution, on the rows the run has already. -/
def start (logs : List LogRow) : Sys := ⟨Writer.start logs, none, ⟨0, .lines, []⟩⟩

/-- A stream that has ended has sent every line the run had when it became
terminal, each of them once. -/
def Whole (s : Sys) : Prop :=
  ∀ final, s.r.poll = .ended final → (∀ row ∈ final, row ∈ s.r.got) ∧ s.r.got.Nodup

/-- A poll at `cursor` could read all of the first `n` lines: they were stored
when it read, at most 500 of them were unread, and the query was answered. -/
def CouldRead (cursor n : Nat) : Option Nat → Prop
  | some stored => n ≤ stored ∧ n ≤ cursor + pollLimit
  | none => n ≤ cursor

/-- The poll that reads a terminal status could read the lines that were stored
when the run became terminal. -/
def TailRead (s : Sys) : Label → Prop
  | .status true => ∀ rows stored final, s.r.poll = .status rows stored → s.final = some final →
      CouldRead s.r.cursor final.length stored
  | _ => True

/-! ## The lines that were sent -/

/-- What a poll has read of these lines. -/
def PollOk (logs : List LogRow) (r : Stream) : Prop :=
  match r.poll with
  | .lines => True
  | .status rows (some n) =>
      rows <+: logs.drop r.cursor ∧ r.cursor + rows.length = min n (r.cursor + pollLimit)
  | .status rows none => rows = []
  | .ended final => final <+: logs

/-- The stream has the first lines, and `final` is what it says. -/
structure Inv (secrets : List Text) (s : Sys) : Prop where
  writer : RunLogs.Inv secrets s.w
  got : s.r.got <+: s.w.table.logs
  cursor : s.r.cursor = s.r.got.length
  poll : PollOk s.w.table.logs s.r
  terminal : s.final.isSome = RunLogs.terminal s.w.status
  final : ∀ final, s.final = some final → final <+: s.w.table.logs

section Steps

variable {secrets : List Text} {secs : Nat} {s s' : Sys} {a : Label}

theorem inv_start {logs : List LogRow} (hlogs : Numbered LogRow.seq logs) :
    Inv secrets (start logs) where
  writer := ⟨hlogs, trivial⟩
  got := List.nil_prefix
  cursor := rfl
  poll := trivial
  terminal := rfl
  final := by rintro final ⟨⟩

theorem PollOk.grow {logs logs' : List LogRow} {r : Stream} (h : PollOk logs r)
    (hgrow : logs <+: logs') : PollOk logs' r := by
  unfold PollOk at h ⊢
  split at h
  · trivial
  · exact ⟨h.1.trans (hgrow.drop _), h.2⟩
  · exact h
  · exact h.trans hgrow

/-- The run is written: lines are added, and the status may change. -/
theorem Inv.write (hI : Inv secrets s) {w : Writer} (hw : RunLogs.Inv secrets w)
    (hgrow : s.w.table.logs <+: w.table.logs) : Inv secrets (s.write w) := by
  refine ⟨hw, hI.got.trans hgrow, hI.cursor, hI.poll.grow hgrow, ?_, ?_⟩
  · simp only [Sys.write]
    split_ifs with ht
    · rw [ht]
      rfl
    · simpa using ht
  · intro final hfinal
    simp only [Sys.write] at hfinal
    split_ifs at hfinal
    cases hfinal
    cases hold : s.final with
    | none => exact List.prefix_refl _
    | some final => exact (hI.final final hold).trans hgrow

/-- The rows of the poll are the next ones. -/
theorem Inv.rows (hI : Inv secrets s) {rows : List LogRow} {stored : Option Nat}
    (hpoll : s.r.poll = .status rows stored) :
    s.r.got ++ rows <+: s.w.table.logs ∧
      NumberedLog.cursor LogRow.seq rows s.r.cursor = (s.r.got ++ rows).length := by
  have hrows : rows <+: s.w.table.logs.drop s.r.cursor := by
    have hok := hI.poll
    unfold PollOk at hok
    rw [hpoll] at hok
    cases stored with
    | none =>
        rw [show rows = [] from hok]
        exact List.nil_prefix
    | some n => exact hok.1
  rw [hI.cursor] at hrows ⊢
  exact NumberedLog.next hI.writer.numbered hI.got hrows

/-- **One step** of the run or of the stream. -/
theorem Inv.step (hI : Inv secrets s) (h : step secrets secs s a = some s') : Inv secrets s' := by
  cases a with
  | exec ev =>
      obtain ⟨w, hw, rfl⟩ := Option.map_eq_some_iff.mp h
      obtain ⟨hwriter, hgrow⟩ := hI.writer.step hw
      exact hI.write hwriter hgrow
  | cancel =>
      cases h
      split_ifs
      · exact hI.write hI.writer (List.prefix_refl _)
      · exact hI.write ⟨hI.writer.numbered, hI.writer.fits⟩ (List.prefix_refl _)
  | requeue =>
      cases h
      exact hI.write ⟨hI.writer.numbered, hI.writer.fits⟩ (List.prefix_refl _)
  | claim =>
      simp only [RunStream.step] at h
      split_ifs at h
      cases h
      exact hI.write ⟨hI.writer.numbered, trivial⟩ (List.prefix_refl _)
  | lines answered =>
      simp only [RunStream.step] at h
      split at h
      · cases h
        cases answered with
        | false => exact ⟨hI.writer, hI.got, hI.cursor, rfl, hI.terminal, hI.final⟩
        | true =>
            refine ⟨hI.writer, hI.got, hI.cursor, ?_, hI.terminal, hI.final⟩
            have hle := hI.got.length_le
            rw [← hI.cursor] at hle
            refine ⟨readAfter_next hI.writer.numbered, ?_⟩
            show s.r.cursor + (readAfter LogRow.seq s.w.table.logs s.r.cursor pollLimit).length =
              min s.w.table.logs.length (s.r.cursor + pollLimit)
            rw [readAfter_eq hI.writer.numbered, List.length_take, List.length_drop]
            omega
      · cases h
  | status answered =>
      simp only [RunStream.step] at h
      split at h
      · next rows stored hpoll =>
          cases h
          obtain ⟨hgot, hcursor⟩ := hI.rows hpoll
          refine ⟨hI.writer, hgot, hcursor, ?_, hI.terminal, hI.final⟩
          unfold PollOk Sys.readStatus
          simp only
          split_ifs
          · cases hfinal : s.final with
            | none => exact List.nil_prefix
            | some final => exact hI.final final hfinal
          · trivial
      · cases h

/-! ## The last poll -/

/-- The last poll sends what was left exactly if it could read it. -/
theorem Inv.last (hI : Inv secrets s) {rows final : List LogRow} {stored : Option Nat}
    (hpoll : s.r.poll = .status rows stored) (hfinal : s.final = some final) :
    (∀ row ∈ final, row ∈ s.r.got ++ rows) ↔ CouldRead s.r.cursor final.length stored := by
  have hok := hI.poll
  unfold PollOk at hok
  rw [hpoll] at hok
  rw [subset_iff hI.writer.numbered (hI.final final hfinal) (hI.rows hpoll).1,
    List.length_append, ← hI.cursor]
  cases stored with
  | none =>
      rw [show rows = [] from hok]
      exact Iff.rfl
  | some n =>
      rw [hok.2]
      exact Nat.le_min

/-- A stream that has ended is left alone. -/
theorem step_ended {final : List LogRow} (hpoll : s.r.poll = .ended final)
    (h : step secrets secs s a = some s') : s'.r = s.r := by
  cases a with
  | exec ev =>
      obtain ⟨w, _, rfl⟩ := Option.map_eq_some_iff.mp h
      rfl
  | cancel => cases h; rfl
  | requeue => cases h; rfl
  | claim =>
      simp only [step] at h
      split_ifs at h
      cases h
      rfl
  | lines answered =>
      simp only [step, hpoll] at h
      cases h
  | status answered =>
      simp only [step, hpoll] at h
      cases h

/-- A stream ends with a poll that reads a terminal status. -/
theorem ended_step {final : List LogRow} (hI : Inv secrets s)
    (h : step secrets secs s a = some s') (hend : s'.r.poll = .ended final) :
    s'.r = s.r ∨ ∃ rows stored, a = .status true ∧ s.r.poll = .status rows stored ∧
      s.final = some final ∧ s'.r.got = s.r.got ++ rows := by
  cases a with
  | exec ev =>
      obtain ⟨w, _, rfl⟩ := Option.map_eq_some_iff.mp h
      exact .inl rfl
  | cancel => cases h; exact .inl rfl
  | requeue => cases h; exact .inl rfl
  | claim =>
      simp only [step] at h
      split_ifs at h
      cases h
      exact .inl rfl
  | lines answered =>
      simp only [step] at h
      split at h
      · cases h
        cases answered <;> cases hend
      · cases h
  | status answered =>
      simp only [step] at h
      split at h
      · next rows stored hpoll =>
          cases h
          simp only [Sys.readStatus] at hend
          split_ifs at hend with hterminal
          obtain ⟨rfl, ht⟩ := Bool.and_eq_true _ _ ▸ hterminal
          rw [← hI.terminal] at ht
          obtain ⟨final', hfinal⟩ := Option.isSome_iff_exists.mp ht
          rw [hfinal] at hend
          cases hend
          exact .inr ⟨rows, stored, rfl, hpoll, hfinal, rfl⟩
      · cases h

/-- The stream has ended without some line. -/
def Missed (s : Sys) : Prop :=
  ∃ final, s.r.poll = .ended final ∧ ¬ ∀ row ∈ final, row ∈ s.r.got

theorem whole_step (hI : Inv secrets s) (hW : Whole s) (hC : TailRead s a)
    (h : step secrets secs s a = some s') : Whole s' := by
  intro final hend
  refine ⟨?_, (hI.step h).writer.numbered.initial (hI.step h).got |>.nodup⟩
  rcases ended_step hI h hend with hsame | ⟨rows, stored, rfl, hpoll, hfinal, hgot⟩
  · rw [hsame] at hend ⊢
    exact (hW final hend).1
  · rw [hgot]
    exact (hI.last hpoll hfinal).mpr (hC rows stored final hpoll hfinal)

theorem missed_step (hI : Inv secrets s) (hC : ¬ TailRead s a)
    (h : step secrets secs s a = some s') : Missed s' := by
  cases a with
  | status answered =>
      cases answered with
      | false => exact absurd trivial hC
      | true =>
          -- the poll that leaves a line behind is the last one
          simp only [TailRead, not_forall] at hC
          obtain ⟨rows, stored, final, hpoll, hfinal, hleft⟩ := hC
          have hterminal : terminal s.w.status = true := by
            rw [← hI.terminal, hfinal]
            rfl
          simp only [step, hpoll, Sys.readStatus, hterminal, hfinal, Bool.true_and,
            if_true, Option.getD_some] at h
          cases h
          exact ⟨final, rfl, fun hall => hleft ((hI.last hpoll hfinal).mp hall)⟩
  | exec ev => exact absurd trivial hC
  | cancel => exact absurd trivial hC
  | requeue => exact absurd trivial hC
  | claim => exact absurd trivial hC
  | lines answered => exact absurd trivial hC

end Steps

/-- **The live tail.**  In every interleaving of a run with a stream, the stream
ends with every line that was stored when the run became terminal, each once, if
and only if the poll that reads the terminal status could read all of them that
were left: they were stored when it read lines, at most 500 of them were unread,
and that query did not fail. -/
theorem tail_complete_iff {secrets : List Text} {secs : Nat} {logs : List LogRow}
    {l : List Label} {s : Sys} (hlogs : Numbered LogRow.seq logs)
    (hrun : Machine.run (step secrets secs) (start logs) l = some s) :
    Whole s ↔ Machine.Along (step secrets secs) TailRead (start logs) l := by
  have hwhole : Whole (start logs) := by
    rintro final ⟨⟩
  have hends := Machine.along_or_run (C := TailRead) (I := fun s => Inv secrets s ∧ Whole s)
    (J := fun s => Inv secrets s ∧ Missed s)
    (fun _ _ _ hI hC h => ⟨hI.1.step h, whole_step hI.1 hI.2 hC h⟩)
    (fun _ _ _ hI hC h => ⟨hI.1.step h, missed_step hI.1 hC h⟩)
    (fun s a s' hJ h => by
      obtain ⟨final, hpoll, hmissed⟩ := hJ.2
      refine ⟨hJ.1.step h, final, ?_⟩
      rw [step_ended hpoll h]
      exact ⟨hpoll, hmissed⟩)
    ⟨inv_start hlogs, hwhole⟩ hrun
  rcases hends with ⟨hal, _, hW⟩ | ⟨hal, _, final, hpoll, hmissed⟩
  · exact iff_of_true hW hal
  · exact iff_of_false (fun hW => hmissed (hW final hpoll).1) hal

/-- A run without a container writes its line and its status. -/
def noContainer : List Label :=
  [.exec (.failed "no container"), .exec (.sql .ok), .exec (.sql .ok), .exec (.sql .ok)]

/-- `tail_complete_iff` when the stream polls after that. -/
theorem tail_complete_after :
    ∃ s, Machine.run (step [] 300) (start []) (noContainer ++ [.lines true, .status true]) =
        some s ∧ Whole s := by
  have hbefore : Machine.Along (step [] 300) TailRead (start []) noContainer := by
    refine Machine.along_of_mem fun a ha => ?_
    fin_cases ha <;> exact fun _ => trivial
  have hC : Machine.Along (step [] 300) TailRead (start [])
      (noContainer ++ [.lines true, .status true]) := by
    refine hbefore.append rfl ⟨trivial, fun s hs => ?_⟩
    cases hs
    refine ⟨?_, fun s hs => trivial⟩
    intro rows stored final hpoll hfinal
    cases hpoll
    cases hfinal
    exact ⟨by decide, by decide⟩
  obtain ⟨s, hrun⟩ : ∃ s, Machine.run (step [] 300) (start [])
      (noContainer ++ [.lines true, .status true]) = some s := ⟨_, rfl⟩
  exact ⟨s, hrun, (tail_complete_iff block_nil hrun).mpr hC⟩

/-- The line is written between the two reads of a poll. -/
theorem not_tail_complete :
    ¬ ∀ (secrets : List Text) (secs : Nat) (logs : List LogRow) (l : List Label) (s : Sys),
      Numbered LogRow.seq logs →
      Machine.run (step secrets secs) (start logs) l = some s → Whole s := by
  intro h
  have hmissed : ∃ s row, Machine.run (step [] 300) (start [])
        (.lines true :: (noContainer ++ [.status true])) = some s ∧
      s.r.poll = .ended [row] ∧ s.r.got = [] := by
    refine ⟨_, _, rfl, rfl, ?_⟩
    show readAfter LogRow.seq [] 0 pollLimit = []
    rw [readAfter_eq block_nil]
    rfl
  obtain ⟨s, row, hrun, hpoll, hgot⟩ := hmissed
  have hsent := (h [] 300 [] _ s block_nil hrun [row] hpoll).1 row List.mem_cons_self
  rw [hgot] at hsent
  cases hsent

end Dokan.Ports.RunStream
