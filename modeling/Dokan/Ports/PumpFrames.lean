import Dokan.Ports.PumpStatements

/-!
# How the frames of a stream show

Docker cuts the output of a job into frames where it likes.  The pump joins the
frames of a stream into lines, but it decodes each of them on its own: a
character of several bytes that is cut in two is replaced by U+FFFD, once for
each part.  A frame also ends a batch, so what is stored before a line that
Postgres refuses depends on the frames as well.

## Main results

* `text_of_whole` — frames that end between two characters decode as one piece.
* `frame_independent` — when two ways of cutting the same bytes have the same
  outcome.
* `not_frame_independent` — a two-byte character cut in two.
-/

namespace Dokan.Ports.PumpLogs

open Dokan.Verified.Lines
open Dokan.Verified.Utf8

/-! ## Cutting -/

/-- The bytes of both streams, in the order in which they arrive. -/
def bytesOf (cs : List Chunk) : List (Stream × UInt8) :=
  cs.flatMap fun c => c.2.map fun b => (c.1.stream, b)

/-- The bytes of one stream. -/
def streamBytes (s : Stream) (bytes : List (Stream × UInt8)) : List UInt8 :=
  (bytes.filter (·.1 = s)).map Prod.snd

/-- Every stream decodes frame by frame to what it decodes to in one piece. -/
def Whole (cs : List Chunk) : Prop := ∀ s, text s cs = lossy (streamBytes s (bytesOf cs))

theorem streamBytes_cons (s : Stream) (c : Chunk) (cs : List Chunk) :
    streamBytes s (bytesOf (c :: cs)) =
      (if s = c.1.stream then c.2 else []) ++ streamBytes s (bytesOf cs) := by
  unfold streamBytes bytesOf
  rw [List.flatMap_cons, List.filter_append, List.map_append]
  congr 1
  split_ifs with hs
  · subst hs
    simp [List.filter_map, Function.comp_def]
  · simp [List.filter_map, Function.comp_def, Ne.symm hs]

/-- **Frames that end between two characters** decode as one piece. -/
theorem text_of_whole {cs : List Chunk} (h : ∀ c ∈ cs, after none c.2 = none) : Whole cs := by
  intro s
  induction cs with
  | nil => rfl
  | cons c cs ih =>
      obtain ⟨kind, message⟩ := c
      have hrest := ih fun c hc => h c (List.mem_cons_of_mem _ hc)
      rw [text_cons, streamBytes_cons]
      split_ifs with hs
      · rw [lossy_append (h _ List.mem_cons_self), hrest]
      · rw [hrest]
        rfl

/-! ## Outcomes -/

/-- The table when the pump stops, and what stopped it. -/
def Table.execUntil : Table → List Statement → Table × Option String
  | t, [] => (t, none)
  | t, st :: sts =>
      match t.exec st with
      | .ok t' => t'.execUntil sts
      | .error msg => (t, some msg)

/-- What a run has of its output once the pump has stopped. -/
structure Outcome where
  lines : Stream → List Text
  progress : Option Text
  /-- the structured result, or the error -/
  returned : Except String (Option Text)

def outcomeOf (stopped : Table × Option String) (result : Option Text) : Outcome where
  lines := fun s => storedLines s stopped.1.logs
  progress := stopped.1.progress
  returned :=
    match stopped.2 with
    | none => .ok result
    | some msg => .error msg

def outcome (secrets : List Text) (before : Table) (cs : List Chunk) : Outcome :=
  outcomeOf (before.execUntil (statements secrets before.logs cs))
    (feed secrets before.logs cs).result

/-- Postgres refuses the statement. -/
def Statement.refused : Statement → Bool
  | .appendLogsBatch rows => !rows.all fun r => storable r.line
  | .updateRunProgress _ => false

/-- The statements before the first refused one. -/
def accepted (sts : List Statement) : List Statement := sts.takeWhile fun st => !st.refused

/-- Every line the job prints may be stored, or is a control line. -/
def AllLoggable (secrets : List Text) (cs : List Chunk) : Prop :=
  ∀ s, ∀ line ∈ printed s cs, loggable secrets s line = true

section Outcome

variable {secrets : List Text} {before : Table} {cs c₁ c₂ : List Chunk}

theorem execUntil_eq (t : Table) (sts : List Statement) :
    t.execAll sts = match (t.execUntil sts).2 with
      | none => .ok (t.execUntil sts).1
      | some msg => .error msg := by
  induction sts generalizing t with
  | nil => rfl
  | cons st sts ih =>
      rw [Table.execAll, List.foldlM_cons, Table.execUntil]
      cases t.exec st with
      | error msg => rfl
      | ok t' => exact ih t'

/-- `pump_logs` returns what the outcome says. -/
theorem pumpLogs_returned (logs : List LogRow) (torn : Bool) :
    (pumpLogs secrets logs (itemsOf cs torn)).map Pump.result =
      (outcome secrets ⟨logs, none⟩ cs).returned := by
  have hmatch := @pumpLogs_matches secrets logs cs torn
  have heq := execUntil_eq ⟨logs, none⟩ (statements secrets logs cs)
  simp only [outcome, outcomeOf]
  cases hpump : pumpLogs secrets logs (itemsOf cs torn) with
  | ok p =>
      rw [hpump] at hmatch
      have hsim : Sim ⟨logs, none⟩ p (feed secrets logs cs) := hmatch
      rw [statements, hsim.table] at heq
      cases hstop : (Table.execUntil ⟨logs, none⟩ (feed secrets logs cs).sent).2 with
      | none => simp only [statements, hstop, Except.map, hsim.result]
      | some msg =>
          rw [hstop] at heq
          cases heq
  | error msg =>
      rw [hpump] at hmatch
      have herr : Table.execAll ⟨logs, none⟩ (feed secrets logs cs).sent = .error msg := hmatch
      rw [statements, herr] at heq
      cases hstop : (Table.execUntil ⟨logs, none⟩ (feed secrets logs cs).sent).2 with
      | none =>
          rw [hstop] at heq
          cases heq
      | some msg' =>
          rw [hstop] at heq
          cases heq
          simp only [statements, hstop, Except.map]

/-- A statement is refused for a row that cannot be stored. -/
theorem any_refused (sts : List Statement) :
    sts.any Statement.refused = false ↔ ∀ r ∈ rowsOf sts, storable r.line = true := by
  induction sts with
  | nil => exact ⟨fun _ r hr => (by cases hr), fun _ => rfl⟩
  | cons st sts ih =>
      rw [List.any_cons, Bool.or_eq_false_iff, ih, rowsOf_cons, List.forall_mem_append]
      refine and_congr_left fun _ => ?_
      cases st with
      | appendLogsBatch rows => simp [Statement.refused, rowsOf]
      | updateRunProgress text => simp [Statement.refused, rowsOf]

/-- **Where the pump stops**: what was sent before the first refused statement
is executed. -/
theorem execUntil_accepted (t : Table) (sts : List Statement) :
    ∃ t', t.execAll (accepted sts) = .ok t' ∧
      t.execUntil sts = (t', if sts.any Statement.refused then some nulError else none) := by
  induction sts generalizing t with
  | nil => exact ⟨t, rfl, rfl⟩
  | cons st sts ih =>
      cases href : st.refused with
      | false =>
          obtain ⟨m, hm⟩ : ∃ m, t.execAll [st] = .ok m := by
            refine execAll_isOk.mpr ((any_refused [st]).mp ?_)
            simp [href]
          rw [execAll_singleton] at hm
          obtain ⟨t', ht', hstop⟩ := ih m
          refine ⟨t', ?_, ?_⟩
          · rw [accepted, List.takeWhile_cons_of_pos (by simp [href])]
            exact execAll_cons.mpr ⟨m, hm, ht'⟩
          · rw [Table.execUntil, hm, List.any_cons, href, Bool.false_or]
            exact hstop
      | true =>
          refine ⟨t, ?_, ?_⟩
          · rw [accepted, List.takeWhile_cons_of_neg (by simp [href])]
            rfl
          · rw [List.any_cons, href, Bool.true_or, if_pos rfl, Table.execUntil]
            cases st with
            | appendLogsBatch rows =>
                have hrows : (rows.all fun r => storable r.line) = false := by
                  simpa [Statement.refused] using href
                simp only [Table.exec, appendLogsBatch, hrows, Bool.false_eq_true, if_false]
                rfl
            | updateRunProgress text => cases href

theorem accepted_eq_take (sts : List Statement) :
    accepted sts = sts.take (accepted sts).length :=
  List.prefix_iff_eq_take.mp (List.takeWhile_prefix _)

/-- Nothing is refused exactly if every line may be stored. -/
theorem any_refused_statements (before : Table) :
    (statements secrets before.logs cs).any Statement.refused = false ↔
      AllLoggable secrets cs := by
  rw [any_refused]
  constructor
  · intro h s line hline
    cases hcon : control s line with
    | some c => simp [loggable, hcon]
    | none =>
        have hmem : redactSecrets line secrets ∈ loggedLines secrets s cs :=
          List.mem_map_of_mem (List.mem_filter.mpr ⟨hline, by simp [hcon]⟩)
        rw [← @statements_lines secrets before cs s] at hmem
        obtain ⟨r, hr, heq⟩ := List.mem_map.mp hmem
        simp only [loggable, hcon, Option.isSome_none, Bool.false_or]
        rw [← heq]
        exact h r (List.mem_filter.mp hr).1
  · exact storable_of_loggable before

/-- **The outcome of a job**: the rows and the progress text of the statements
before the first refused one. -/
theorem outcome_eq (secrets : List Text) (before : Table) (cs : List Chunk) :
    outcome secrets before cs =
      { lines := fun s => storedLines s before.logs ++
          storedLines s (rowsOf (accepted (statements secrets before.logs cs)))
        progress := ((textsOf (accepted (statements secrets before.logs cs))).filter
          storable).getLast?.or before.progress
        returned :=
          if (statements secrets before.logs cs).any Statement.refused then .error nulError
          else .ok (resultLines cs).getLast? } := by
  obtain ⟨t, ht, hstop⟩ := execUntil_accepted before (statements secrets before.logs cs)
  have hprogress := execAll_progress ht
  rw [accepted_eq_take] at ht
  have hlogs := logs_of_take ht
  rw [← accepted_eq_take] at hlogs
  have hreturned : (match (if (statements secrets before.logs cs).any Statement.refused then
          some nulError else none : Option String) with
        | none => (.ok (resultLines cs).getLast? : Except String (Option Text))
        | some msg => .error msg) =
      if (statements secrets before.logs cs).any Statement.refused then .error nulError
      else .ok (resultLines cs).getLast? := by
    split_ifs
    · rfl
    · rfl
  rw [outcome, outcomeOf, hstop, feed_result, hlogs, hprogress, Outcome.mk.injEq]
  exact ⟨funext fun s => storedLines_append s _ _, rfl, hreturned⟩

/-- If every line may be stored, all statements are accepted. -/
theorem accepted_of_loggable (h : AllLoggable secrets cs) :
    accepted (statements secrets before.logs cs) = statements secrets before.logs cs := by
  refine List.takeWhile_eq_self_iff.mpr fun st hst => ?_
  have hnone := List.any_eq_false.mp ((any_refused_statements before).mpr h) st hst
  simpa using hnone

/-- The decoded texts show the same: the same lines to log, once redacted, the
same last progress text and the same last result. -/
structure SameShown (secrets : List Text) (before : Table) (c₁ c₂ : List Chunk) : Prop where
  logged : ∀ s, loggedLines secrets s c₁ = loggedLines secrets s c₂
  progress : ((progressLines c₁).filter storable).getLast?.or before.progress =
    ((progressLines c₂).filter storable).getLast?.or before.progress
  result : (resultLines c₁).getLast? = (resultLines c₂).getLast?

/-- The batches before the first refused one show the same. -/
structure SameStopped (secrets : List Text) (before : Table) (c₁ c₂ : List Chunk) :
    Prop where
  logged : ∀ s, storedLines s (rowsOf (accepted (statements secrets before.logs c₁))) =
    storedLines s (rowsOf (accepted (statements secrets before.logs c₂)))
  progress : ((textsOf (accepted (statements secrets before.logs c₁))).filter
      storable).getLast?.or before.progress =
    ((textsOf (accepted (statements secrets before.logs c₂))).filter
      storable).getLast?.or before.progress

/-- Of jobs all of whose lines may be stored. -/
theorem outcome_eq_iff_of_loggable (h₁ : AllLoggable secrets c₁) (h₂ : AllLoggable secrets c₂) :
    outcome secrets before c₁ = outcome secrets before c₂ ↔
      SameShown secrets before c₁ c₂ := by
  rw [outcome_eq, outcome_eq, accepted_of_loggable h₁, accepted_of_loggable h₂,
    (any_refused_statements before).mpr h₁, (any_refused_statements before).mpr h₂,
    Outcome.mk.injEq]
  simp only [statements_lines, statements_texts, Bool.false_eq_true, if_false]
  constructor
  · rintro ⟨hlines, hprogress, hresult⟩
    exact
      { logged := fun s => List.append_cancel_left (congrFun hlines s)
        progress := hprogress
        result := Except.ok.inj hresult }
  · intro h
    refine ⟨funext fun s => ?_, h.progress, congrArg Except.ok h.result⟩
    rw [h.logged s]

/-- Of jobs with lines that may not. -/
theorem outcome_eq_iff_of_refused (h₁ : ¬ AllLoggable secrets c₁)
    (h₂ : ¬ AllLoggable secrets c₂) :
    outcome secrets before c₁ = outcome secrets before c₂ ↔
      SameStopped secrets before c₁ c₂ := by
  have href : ∀ {cs}, ¬ AllLoggable secrets cs →
      (statements secrets before.logs cs).any Statement.refused = true := fun hcs =>
    Bool.of_not_eq_false fun h => hcs ((any_refused_statements before).mp h)
  rw [outcome_eq, outcome_eq, href h₁, href h₂, Outcome.mk.injEq]
  constructor
  · rintro ⟨hlines, hprogress, _⟩
    exact
      { logged := fun s => List.append_cancel_left (congrFun hlines s)
        progress := hprogress }
  · intro h
    refine ⟨funext fun s => ?_, h.progress, rfl⟩
    rw [h.logged s]

/-- The pump gets to the end of both or of neither. -/
theorem loggable_iff_of_outcome (h : outcome secrets before c₁ = outcome secrets before c₂) :
    AllLoggable secrets c₁ ↔ AllLoggable secrets c₂ := by
  rw [outcome_eq, outcome_eq, Outcome.mk.injEq] at h
  have hreturned := h.2.2
  rw [← any_refused_statements before,
    ← any_refused_statements before]
  cases hr₁ : (statements secrets before.logs c₁).any Statement.refused with
  | false =>
      cases hr₂ : (statements secrets before.logs c₂).any Statement.refused with
      | false => exact Iff.rfl
      | true =>
          rw [hr₁, hr₂] at hreturned
          cases hreturned
  | true =>
      cases hr₂ : (statements secrets before.logs c₂).any Statement.refused with
      | false =>
          rw [hr₁, hr₂] at hreturned
          cases hreturned
      | true => exact Iff.rfl

/-- Whole frames of the same bytes decode to the same texts. -/
theorem text_eq_of_whole (hbytes : bytesOf c₁ = bytesOf c₂) (h₁ : Whole c₁) (h₂ : Whole c₂)
    (s : Stream) : text s c₁ = text s c₂ := by
  rw [h₁ s, h₂ s, hbytes]

/-- Equal texts show the same. -/
theorem sameShown_of_text (h : ∀ s, text s c₁ = text s c₂) :
    SameShown secrets before c₁ c₂ := by
  have hprinted : ∀ s, printed s c₁ = printed s c₂ := fun s => by
    rw [printed, printed, h s]
  exact
    { logged := fun s => by rw [loggedLines, loggedLines, hprinted]
      progress := by rw [progressLines, progressLines, hprinted]
      result := by rw [resultLines, resultLines, hprinted] }

/-- So whole frames of lines that may be stored have one outcome. -/
theorem outcome_eq_of_whole (hbytes : bytesOf c₁ = bytesOf c₂) (h₁ : Whole c₁)
    (h₂ : Whole c₂) (hlog : AllLoggable secrets c₁) :
    outcome secrets before c₁ = outcome secrets before c₂ := by
  have htext := text_eq_of_whole hbytes h₁ h₂
  have hlog₂ : AllLoggable secrets c₂ := fun s line hline =>
    hlog s line (by rwa [printed, htext s])
  exact (outcome_eq_iff_of_loggable hlog hlog₂).mpr (sameShown_of_text htext)

end Outcome

/-- The letter é and a newline, in one frame. -/
def oneFrame : List Chunk := [(.stdOut, [0xC3, 0xA9, 0x0A])]

/-- The same bytes in two. -/
def twoFrames : List Chunk := [(.stdOut, [0xC3]), (.stdOut, [0xA9, 0x0A])]

end Dokan.Ports.PumpLogs
