import Dokan.Ports.PumpLogs

/-!
# The statements the log pump sends

What `pump_logs` sends to Postgres does not depend on what Postgres answers,
save that it stops at the first refused batch.  So the pump is a feed, which
turns chunks into statements, in front of a table that executes them; a pump
that is stopped early, by a refused batch or by the time limit of the run,
leaves behind what the first of its statements did.

`Spec` says what the statements are in terms of the lines that were fed:
however they are batched, the rows are the lines that are no control lines,
redacted and numbered.

## Main results

* `pumpLogs_matches` — the pump is the feed and the table.
* `feed_spec` — the feed sends the printed lines.
* `execAll_logs`, `execAll_progress` — what a run of statements leaves in the
  table.
-/

namespace Dokan.Ports.PumpLogs

open Dokan.Verified.Lines
open Dokan.Verified.Utf8

/-! ## Statements -/

/-- A statement the pump sends. -/
inductive Statement
  | appendLogsBatch (rows : List LogRow)
  | updateRunProgress (text : Text)

/-- What the database has of a run: its log rows and `progress`. -/
structure Table where
  logs : List LogRow
  progress : Option Text

/-- One statement.  A refused batch ends the pump, a refused progress text does
not. -/
def Table.exec (t : Table) : Statement → Except String Table
  | .appendLogsBatch rows => do
      let logs ← appendLogsBatch t.logs rows
      return { t with logs }
  | .updateRunProgress text =>
      if storable text then return { t with progress := some text } else return t

def Table.execAll (t : Table) (sts : List Statement) : Except String Table :=
  sts.foldlM Table.exec t

/-! ## The feed -/

/-- The pump without the database. -/
structure Feed where
  seq : Nat
  bufOut : Text
  bufErr : Text
  result : Option Text
  batch : List LogRow
  sent : List Statement

def Feed.buf (f : Feed) : Stream → Text
  | .stdout => f.bufOut
  | .stderr => f.bufErr

def Feed.setBuf (f : Feed) (s : Stream) (t : Text) : Feed :=
  match s with
  | .stdout => { f with bufOut := t }
  | .stderr => { f with bufErr := t }

def Feed.flush (f : Feed) : Feed :=
  if f.batch.isEmpty then f
  else { f with sent := f.sent ++ [.appendLogsBatch f.batch], batch := [] }

section Feed

variable (secrets : List Text)

def Feed.push (f : Feed) (s : Stream) (line : Text) : Feed :=
  match control s line with
  | some (.result t) => { f with result := some t }
  | some (.progress t) => { f with sent := f.sent ++ [.updateRunProgress t] }
  | none =>
      { f with
        seq := f.seq + 1
        batch := f.batch ++ [⟨f.seq + 1, s, redactSecrets line secrets⟩] }

def Feed.line (s : Stream) (f : Feed) (raw : Text) : Feed :=
  let line := trimEndMatches (· = '\r') raw
  let f' := f.push secrets s line
  if (control s line).isNone && 256 ≤ f'.batch.length then f'.flush else f'

def Feed.chunk (f : Feed) (c : Chunk) : Feed :=
  let s := c.1.stream
  let parts := cut '\n' (f.buf s ++ lossy c.2)
  (parts.1.foldl (Feed.line secrets s) (f.setBuf s parts.2)).flush

def Feed.chunks (f : Feed) (cs : List Chunk) : Feed := cs.foldl (Feed.chunk secrets) f

def Feed.tail (f : Feed) (s : Stream) : Feed :=
  if (f.buf s).isEmpty then f else f.push secrets s (f.buf s)

def Feed.start (logs : List LogRow) : Feed where
  seq := maxLogSeq logs
  bufOut := []
  bufErr := []
  result := none
  batch := []
  sent := []

/-- Everything a job prints, on the rows the run has already. -/
def feed (logs : List LogRow) (cs : List Chunk) : Feed :=
  ((((Feed.start logs).chunks secrets cs).tail secrets .stdout).tail secrets .stderr).flush

/-- The statements the pump sends as long as none is refused. -/
def statements (logs : List LogRow) (cs : List Chunk) : List Statement :=
  (feed secrets logs cs).sent

end Feed

/-! ## The pump is the feed and the table -/

section Matches

variable {secrets : List Text} {t₀ : Table} {p p' : Pump} {f : Feed} {s : Stream}

/-- The pump and the feed are at one point, and the table has executed what was
sent. -/
structure Sim (t₀ : Table) (p : Pump) (f : Feed) : Prop where
  seq : p.seq = f.seq
  bufOut : p.bufOut = f.bufOut
  bufErr : p.bufErr = f.bufErr
  result : p.result = f.result
  batch : p.batch = f.batch
  table : t₀.execAll f.sent = .ok ⟨p.logs, p.progress⟩

/-- A pump that ended with an error did so on what was sent. -/
def Matches (t₀ : Table) (r : Except String Pump) (f : Feed) : Prop :=
  match r with
  | .ok p => Sim t₀ p f
  | .error msg => t₀.execAll f.sent = .error msg

theorem execAll_append (t : Table) (a b : List Statement) :
    t.execAll (a ++ b) = t.execAll a >>= fun t' => t'.execAll b :=
  List.foldlM_append ..

theorem execAll_singleton (t : Table) (a : Statement) : t.execAll [a] = t.exec a := by
  unfold Table.execAll
  rw [List.foldlM_cons]
  cases t.exec a <;> rfl

theorem Sim.buf (h : Sim t₀ p f) (s : Stream) : p.buf s = f.buf s := by
  cases s with
  | stdout => exact h.bufOut
  | stderr => exact h.bufErr

theorem Sim.setBuf (h : Sim t₀ p f) (s : Stream) (t : Text) :
    Sim t₀ (p.setBuf s t) (f.setBuf s t) := by
  cases s with
  | stdout => exact { h with bufOut := rfl }
  | stderr => exact { h with bufErr := rfl }

theorem Sim.push (h : Sim t₀ p f) (s : Stream) (line : Text) :
    Sim t₀ (p.push secrets s line) (f.push secrets s line) := by
  unfold Pump.push Feed.push
  cases hcon : control s line with
  | none => exact { h with seq := by rw [h.seq], batch := by rw [h.batch, h.seq] }
  | some c =>
      cases c with
      | result t => exact { h with result := rfl }
      | progress t =>
          have hsent : t₀.execAll (f.sent ++ [.updateRunProgress t]) =
              Table.exec ⟨p.logs, p.progress⟩ (.updateRunProgress t) := by
            rw [execAll_append, h.table]
            exact execAll_singleton _ _
          cases hst : storable t with
          | true =>
              simp only [hst, if_true]
              exact { h with table := by rw [hsent, Table.exec, hst]; rfl }
          | false =>
              simp only [hst, Bool.false_eq_true, if_false]
              exact { h with table := by rw [hsent, Table.exec, hst]; rfl }

theorem Sim.flush (h : Sim t₀ p f) : Matches t₀ p.flush f.flush := by
  unfold Pump.flush Feed.flush
  rw [h.batch]
  split
  · exact h
  · have hsent : t₀.execAll (f.sent ++ [.appendLogsBatch f.batch]) =
        (do return { logs := ← appendLogsBatch p.logs f.batch, progress := p.progress }) := by
      rw [execAll_append, h.table]
      exact execAll_singleton _ _
    cases hrows : appendLogsBatch p.logs f.batch with
    | error msg =>
        rw [hrows] at hsent
        exact hsent
    | ok logs =>
        rw [hrows] at hsent
        exact { h with batch := rfl, table := hsent }

/-- What was sent stays sent. -/
theorem Matches.bind {r : Except String Pump} {k : Pump → Except String Pump} {g : Feed}
    (h : Matches t₀ r f) (hsent : f.sent <+: g.sent)
    (hk : ∀ p, Sim t₀ p f → Matches t₀ (k p) g) : Matches t₀ (r >>= k) g := by
  cases r with
  | ok p => exact hk p h
  | error msg =>
      obtain ⟨rest, hrest⟩ := hsent
      have herr : t₀.execAll f.sent = .error msg := h
      show t₀.execAll g.sent = .error msg
      rw [← hrest, execAll_append, herr]
      rfl

theorem flush_sent (f : Feed) : f.sent <+: f.flush.sent := by
  unfold Feed.flush
  split
  · exact List.prefix_refl _
  · exact List.prefix_append _ _

theorem push_sent (f : Feed) (s : Stream) (line : Text) :
    f.sent <+: (f.push secrets s line).sent := by
  unfold Feed.push
  split
  · exact List.prefix_refl _
  · exact List.prefix_append _ _
  · exact List.prefix_refl _

theorem line_sent (f : Feed) (s : Stream) (raw : Text) :
    f.sent <+: (f.line secrets s raw).sent := by
  unfold Feed.line
  simp only
  split
  · exact (push_sent f s _).trans (flush_sent _)
  · exact push_sent f s _

theorem lines_sent (secrets : List Text) (s : Stream) (ls : List Text) (f : Feed) :
    f.sent <+: (ls.foldl (Feed.line secrets s) f).sent := by
  induction ls generalizing f with
  | nil => exact List.prefix_refl _
  | cons raw ls ih => exact (line_sent f s raw).trans (ih _)

theorem setBuf_sent (f : Feed) (s : Stream) (t : Text) : (f.setBuf s t).sent = f.sent := by
  cases s <;> rfl

theorem chunk_sent (f : Feed) (c : Chunk) : f.sent <+: (f.chunk secrets c).sent := by
  have h := lines_sent secrets c.1.stream
    (cut '\n' (f.buf c.1.stream ++ lossy c.2)).1
    (f.setBuf c.1.stream (cut '\n' (f.buf c.1.stream ++ lossy c.2)).2)
  rw [setBuf_sent] at h
  exact h.trans (flush_sent _)

theorem chunks_sent (cs : List Chunk) (f : Feed) :
    f.sent <+: (f.chunks secrets cs).sent := by
  induction cs generalizing f with
  | nil => exact List.prefix_refl _
  | cons c cs ih => exact (chunk_sent f c).trans (ih _)

theorem tail_sent (f : Feed) (s : Stream) : f.sent <+: (f.tail secrets s).sent := by
  unfold Feed.tail
  split
  · exact List.prefix_refl _
  · exact push_sent f s _

theorem Sim.line (h : Sim t₀ p f) (s : Stream) (raw : Text) :
    Matches t₀ (Pump.line secrets s p raw) (f.line secrets s raw) := by
  have hpush : Sim t₀ (p.push secrets s (trimEndMatches (· = '\r') raw))
      (f.push secrets s (trimEndMatches (· = '\r') raw)) := h.push s _
  unfold Pump.line Feed.line
  simp only [hpush.batch]
  split
  · exact hpush.flush
  · exact hpush

theorem Sim.lines (ls : List Text) (h : Sim t₀ p f) :
    Matches t₀ (ls.foldlM (Pump.line secrets s) p) (ls.foldl (Feed.line secrets s) f) := by
  induction ls generalizing p f with
  | nil => exact h
  | cons raw ls ih =>
      rw [List.foldlM_cons, List.foldl_cons]
      exact (h.line s raw).bind (lines_sent _ _ ls _) fun p' h' => ih h'

theorem Sim.chunk (h : Sim t₀ p f) (c : Chunk) :
    Matches t₀ (p.chunk secrets c.1 c.2) (f.chunk secrets c) := by
  unfold Pump.chunk Feed.chunk
  simp only [h.buf c.1.stream]
  exact (Sim.lines _ (h.setBuf c.1.stream _)).bind (flush_sent _) fun p' h' => h'.flush

theorem Sim.items (cs : List Chunk) (torn : Bool) (h : Sim t₀ p f) :
    Matches t₀ (p.items secrets (itemsOf cs torn)) (f.chunks secrets cs) := by
  induction cs generalizing p f with
  | nil =>
      have hitems : p.items secrets (itemsOf [] torn) = .ok p := items_ending torn
      rw [hitems]
      exact h
  | cons c cs ih => exact (h.chunk c).bind (chunks_sent cs _) fun p' h' => ih h'

theorem Sim.tail (h : Sim t₀ p f) (s : Stream) :
    Sim t₀ (p.tail secrets s) (f.tail secrets s) := by
  unfold Pump.tail Feed.tail
  rw [h.buf s]
  split
  · exact h
  · exact h.push s _

/-- **The pump is the feed and the table.** -/
theorem pumpLogs_matches (logs : List LogRow) (cs : List Chunk) (torn : Bool) :
    Matches ⟨logs, none⟩ (pumpLogs secrets logs (itemsOf cs torn)) (feed secrets logs cs) := by
  have hstart : Sim ⟨logs, none⟩ (Pump.start logs) (Feed.start logs) :=
    { seq := rfl, bufOut := rfl, bufErr := rfl, result := rfl, batch := rfl, table := rfl }
  refine (Sim.items cs torn hstart).bind ?_ fun p h => ((h.tail .stdout).tail .stderr).flush
  exact ((tail_sent _ _).trans (tail_sent _ _)).trans (flush_sent _)

end Matches

/-! ## What the statements are -/

/-- A line and its stream, in the order they are fed. -/
abbrev Lines := List (Stream × Text)

/-- The text of a line that is logged. -/
def loggedText (secrets : List Text) (l : Stream × Text) : Option (Stream × Text) :=
  match control l.1 l.2 with
  | none => some (l.1, redactSecrets l.2 secrets)
  | some _ => none

def progressText (l : Stream × Text) : Option Text :=
  match control l.1 l.2 with
  | some (.progress t) => some t
  | _ => none

def resultText (l : Stream × Text) : Option Text :=
  match control l.1 l.2 with
  | some (.result t) => some t
  | _ => none

/-- Rows numbered from `n + 1`. -/
def number : Nat → Lines → List LogRow
  | _, [] => []
  | n, (s, line) :: ls => ⟨n + 1, s, line⟩ :: number (n + 1) ls

/-- The rows and the progress texts among statements. -/
def rowsOf : List Statement → List LogRow
  | [] => []
  | .appendLogsBatch rows :: sts => rows ++ rowsOf sts
  | .updateRunProgress _ :: sts => rowsOf sts

def textsOf : List Statement → List Text
  | [] => []
  | .appendLogsBatch _ :: sts => textsOf sts
  | .updateRunProgress t :: sts => t :: textsOf sts

theorem rowsOf_append (a b : List Statement) : rowsOf (a ++ b) = rowsOf a ++ rowsOf b := by
  induction a with
  | nil => rfl
  | cons st a ih =>
      cases st with
      | appendLogsBatch rows => simp only [List.cons_append, rowsOf, ih, List.append_assoc]
      | updateRunProgress t => simp only [List.cons_append, rowsOf, ih]

theorem textsOf_append (a b : List Statement) : textsOf (a ++ b) = textsOf a ++ textsOf b := by
  induction a with
  | nil => rfl
  | cons st a ih =>
      cases st with
      | appendLogsBatch rows => simp only [List.cons_append, textsOf, ih]
      | updateRunProgress t => simp only [List.cons_append, textsOf, ih]

theorem number_append (n : Nat) (a b : Lines) :
    number n (a ++ b) = number n a ++ number (n + a.length) b := by
  induction a generalizing n with
  | nil => rfl
  | cons l a ih =>
      simp only [List.cons_append, number, ih, List.length_cons]
      rw [Nat.add_right_comm, Nat.add_assoc]

theorem number_stream (n : Nat) (l : Lines) (s : Stream) :
    ((number n l).filter (·.stream = s)).map LogRow.line =
      (l.filter (·.1 = s)).map Prod.snd := by
  induction l generalizing n with
  | nil => rfl
  | cons x l ih =>
      obtain ⟨t, line⟩ := x
      by_cases h : t = s
      · simp [number, h, ih]
      · simp [number, h, ih]

/-- Numbered rows are numbered upwards. -/
theorem lt_of_mem_number {n : Nat} {l : Lines} {r : LogRow} (h : r ∈ number n l) :
    n < r.seq := by
  induction l generalizing n with
  | nil => cases h
  | cons x l ih =>
      rcases List.mem_cons.mp h with rfl | h
      · exact Nat.lt_succ_self n
      · exact Nat.lt_trans (Nat.lt_succ_self n) (ih h)

/-- Numbered rows are in the order of their numbers. -/
theorem number_sorted (n : Nat) (l : Lines) :
    (number n l).Pairwise fun r r' => r.seq < r'.seq := by
  induction l generalizing n with
  | nil => exact List.Pairwise.nil
  | cons x l ih => exact List.Pairwise.cons (fun r hr => lt_of_mem_number hr) (ih (n + 1))

section Spec

variable {secrets : List Text} {n : Nat} {f : Feed} {l : Lines} {s : Stream}

/-- What a feed has done with the lines `l`, the first row being `n + 1`. -/
structure Spec (secrets : List Text) (n : Nat) (f : Feed) (l : Lines) : Prop where
  seq : f.seq = n + (l.filterMap (loggedText secrets)).length
  rows : rowsOf f.sent ++ f.batch = number n (l.filterMap (loggedText secrets))
  texts : textsOf f.sent = l.filterMap progressText
  result : f.result = (l.filterMap resultText).getLast?

theorem Spec.flush (h : Spec secrets n f l) : Spec secrets n f.flush l := by
  unfold Feed.flush
  split
  · exact h
  · exact
      { h with
        rows := by
          rw [rowsOf_append, List.append_nil, ← h.rows]
          simp only [rowsOf, List.append_nil]
        texts := by
          rw [textsOf_append, ← h.texts]
          exact List.append_nil _ }

theorem Spec.push (h : Spec secrets n f l) (s : Stream) (line : Text) :
    Spec secrets n (f.push secrets s line) (l ++ [(s, line)]) := by
  unfold Feed.push
  cases hcon : control s line with
  | none =>
      have hlog : loggedText secrets (s, line) = some (s, redactSecrets line secrets) := by
        simp only [loggedText, hcon]
      have hprog : progressText (s, line) = none := by simp only [progressText, hcon]
      have hres : resultText (s, line) = none := by simp only [resultText, hcon]
      refine ⟨?_, ?_, ?_, ?_⟩
      · simp [hlog, h.seq, Nat.add_assoc]
      · rw [List.filterMap_append, List.filterMap_cons_some hlog, List.filterMap_nil,
          number_append, ← h.rows, ← h.seq, List.append_assoc]
        rfl
      · simpa [hprog] using h.texts
      · simpa [hres] using h.result
  | some c =>
      have hlog : loggedText secrets (s, line) = none := by simp only [loggedText, hcon]
      cases c with
      | result t =>
          have hprog : progressText (s, line) = none := by simp only [progressText, hcon]
          have hres : resultText (s, line) = some t := by simp only [resultText, hcon]
          refine ⟨?_, ?_, ?_, ?_⟩
          · simpa [hlog] using h.seq
          · simpa [hlog] using h.rows
          · simpa [hprog] using h.texts
          · simp [hres]
      | progress t =>
          have hprog : progressText (s, line) = some t := by simp only [progressText, hcon]
          have hres : resultText (s, line) = none := by simp only [resultText, hcon]
          refine ⟨?_, ?_, ?_, ?_⟩
          · simpa [hlog] using h.seq
          · simpa [hlog, rowsOf_append, rowsOf] using h.rows
          · simp [hprog, textsOf_append, textsOf, h.texts]
          · simpa [hres] using h.result

theorem Spec.line (h : Spec secrets n f l) (s : Stream) (raw : Text) :
    Spec secrets n (f.line secrets s raw) (l ++ [(s, trimEndMatches (· = '\r') raw)]) := by
  unfold Feed.line
  simp only
  split
  · exact (h.push s _).flush
  · exact h.push s _

theorem Spec.lines (ls : List Text) (h : Spec secrets n f l) :
    Spec secrets n (ls.foldl (Feed.line secrets s) f)
      (l ++ ls.map fun raw => (s, trimEndMatches (· = '\r') raw)) := by
  induction ls generalizing f l with
  | nil => simpa using h
  | cons raw ls ih =>
      have hrest := ih (h.line s raw)
      rw [List.append_assoc] at hrest
      exact hrest

theorem feedPush_buf (f : Feed) (s t : Stream) (line : Text) :
    (f.push secrets s line).buf t = f.buf t := by
  unfold Feed.push
  split <;> cases t <;> rfl

theorem feedFlush_buf (f : Feed) (t : Stream) : f.flush.buf t = f.buf t := by
  unfold Feed.flush
  split
  · rfl
  · cases t <;> rfl

theorem feedLines_buf (ls : List Text) (f : Feed) (t : Stream) :
    (ls.foldl (Feed.line secrets s) f).buf t = f.buf t := by
  induction ls generalizing f with
  | nil => rfl
  | cons raw ls ih =>
      rw [List.foldl_cons, ih]
      unfold Feed.line
      simp only
      split
      · rw [feedFlush_buf, feedPush_buf]
      · rw [feedPush_buf]

theorem feedSetBuf_buf (f : Feed) (s t : Stream) (b : Text) :
    (f.setBuf s b).buf t = if t = s then b else f.buf t := by
  cases s <;> cases t <;> rfl

theorem feedChunk_buf (f : Feed) (c : Chunk) (t : Stream) :
    (f.chunk secrets c).buf t =
      if t = c.1.stream then (cut '\n' (f.buf t ++ lossy c.2)).2 else f.buf t := by
  unfold Feed.chunk
  simp only
  rw [feedFlush_buf, feedLines_buf, feedSetBuf_buf]
  split_ifs with ht
  · rw [ht]
  · rfl

theorem Spec.setBuf (h : Spec secrets n f l) (s : Stream) (t : Text) :
    Spec secrets n (f.setBuf s t) l := by
  cases s with
  | stdout => exact { h with seq := h.seq }
  | stderr => exact { h with seq := h.seq }

theorem Spec.chunk (h : Spec secrets n f l) (c : Chunk) :
    Spec secrets n (f.chunk secrets c)
      (l ++ (cut '\n' (f.buf c.1.stream ++ lossy c.2)).1.map fun raw =>
        (c.1.stream, trimEndMatches (· = '\r') raw)) :=
  (Spec.lines _ (h.setBuf c.1.stream _)).flush

/-- The lines of one stream. -/
def Lines.of (l : Lines) (s : Stream) : List Text := (l.filter (·.1 = s)).map Prod.snd

theorem Lines.of_append (a b : Lines) (s : Stream) :
    Lines.of (a ++ b) s = Lines.of a s ++ Lines.of b s := by
  simp [Lines.of]

theorem Lines.of_map (ls : List Text) (s t : Stream) (g : Text → Text) :
    Lines.of (ls.map fun raw => (s, g raw)) t = if t = s then ls.map g else [] := by
  unfold Lines.of
  split_ifs with h
  · subst h
    simp [List.filter_map, Function.comp_def]
  · simp [List.filter_map, Function.comp_def, Ne.symm h]

/-- The lines of a stream after one more chunk, and its buffer. -/
theorem cut_feed_cons (f : Feed) (c : Chunk) (s : Stream) (cs : List Chunk) :
    cut '\n' (f.buf s ++ text s (c :: cs)) =
      ((if s = c.1.stream then (cut '\n' (f.buf s ++ lossy c.2)).1 else []) ++
          (cut '\n' ((f.chunk secrets c).buf s ++ text s cs)).1,
        (cut '\n' ((f.chunk secrets c).buf s ++ text s cs)).2) := by
  obtain ⟨kind, message⟩ := c
  rw [text_cons, feedChunk_buf]
  split_ifs with hs
  · rw [← List.append_assoc, cut_append]
  · rfl

/-- The loop feeds the complete lines of both streams and leaves the unfinished
ones behind. -/
theorem feedChunks_spec (cs : List Chunk) (h : Spec secrets n f l)
    (hopen : ∀ s, (cut '\n' (f.buf s)).1 = []) :
    ∃ l', Spec secrets n (f.chunks secrets cs) (l ++ l') ∧ ∀ s,
      (f.chunks secrets cs).buf s = (cut '\n' (f.buf s ++ text s cs)).2 ∧
        Lines.of l' s =
          (cut '\n' (f.buf s ++ text s cs)).1.map (trimEndMatches (· = '\r')) := by
  induction cs generalizing f l with
  | nil =>
      refine ⟨[], by simpa [Feed.chunks] using h, fun s => ?_⟩
      have htext : f.buf s ++ text s [] = f.buf s := List.append_nil _
      rw [htext, hopen s]
      exact ⟨(cut_snd_of_fst_nil (hopen s)).symm, rfl⟩
  | cons c cs ih =>
      have hopen' : ∀ s, (cut '\n' ((f.chunk secrets c).buf s)).1 = [] := by
        intro s
        rw [feedChunk_buf]
        split_ifs
        · exact cut_cut_snd _
        · exact hopen s
      obtain ⟨l', hspec, hrest⟩ := ih (h.chunk c) hopen'
      rw [List.append_assoc] at hspec
      refine ⟨_, hspec, fun s => ?_⟩
      obtain ⟨hbuf, hlines⟩ := hrest s
      rw [cut_feed_cons f c s cs, Lines.of_append, Lines.of_map, hlines,
        List.map_append]
      refine ⟨hbuf, ?_⟩
      split_ifs with hs
      · rw [hs]
      · rfl

theorem Spec.tail (h : Spec secrets n f l) (s : Stream) :
    Spec secrets n (f.tail secrets s)
      (l ++ if (f.buf s).isEmpty then [] else [(s, f.buf s)]) := by
  unfold Feed.tail
  split
  · rw [List.append_nil]
    exact h
  · exact h.push s _

theorem feedTail_buf (f : Feed) (s t : Stream) : (f.tail secrets s).buf t = f.buf t := by
  unfold Feed.tail
  split
  · rfl
  · exact feedPush_buf f s t _

/-- **The feed sends the printed lines**, those of each stream in order, and
leaves nothing in the batch. -/
theorem feed_spec (secrets : List Text) (logs : List LogRow) (cs : List Chunk) :
    ∃ l, Spec secrets (maxLogSeq logs) (feed secrets logs cs) l ∧
      (feed secrets logs cs).batch = [] ∧ ∀ s, Lines.of l s = printed s cs := by
  have hstart : Spec secrets (maxLogSeq logs) (Feed.start logs) [] := ⟨rfl, rfl, rfl, rfl⟩
  have hbufs : ∀ s, (Feed.start logs).buf s = [] := fun s => by cases s <;> rfl
  have hopen : ∀ s, (cut '\n' ((Feed.start logs).buf s)).1 = [] := fun s => by
    rw [hbufs]
    rfl
  obtain ⟨l, hspec, hlines⟩ := feedChunks_spec cs hstart hopen
  simp only [hbufs, List.nil_append] at hspec hlines
  have htails := (hspec.tail .stdout).tail .stderr
  rw [feedTail_buf, (hlines .stdout).1, (hlines .stderr).1] at htails
  refine ⟨_, htails.flush, ?_, fun s => ?_⟩
  · unfold feed Feed.flush
    split
    · rename_i hempty
      exact List.isEmpty_iff.mp hempty
    · rfl
  · rw [Lines.of_append, Lines.of_append, (hlines s).2, printed, linesOf]
    cases s with
    | stdout =>
        have hother : Lines.of (if (cut '\n' (text .stderr cs)).2.isEmpty then [] else
            [(.stderr, (cut '\n' (text .stderr cs)).2)]) .stdout = [] := by
          split <;> rfl
        rw [hother, List.append_nil]
        split <;> rfl
    | stderr =>
        have hother : Lines.of (if (cut '\n' (text .stdout cs)).2.isEmpty then [] else
            [(.stdout, (cut '\n' (text .stdout cs)).2)]) .stderr = [] := by
          split <;> rfl
        rw [hother, List.append_nil]
        split <;> rfl

end Spec

/-! ## What statements leave in the table -/

section Exec

variable {t t' : Table} {sts : List Statement}

theorem exec_ok {st : Statement} (h : t.exec st = .ok t') :
    (∀ r ∈ rowsOf [st], storable r.line = true) ∧
      t'.logs = (rowsOf [st]).foldl (Verified.Rows.insertNew LogRow.seq) t.logs ∧
      t'.progress = ((textsOf [st]).filter storable).getLast?.or t.progress := by
  cases st with
  | appendLogsBatch rows =>
      simp only [Table.exec, appendLogsBatch] at h
      simp only [rowsOf, List.append_nil, textsOf]
      split at h
      · rename_i hall
        cases h
        exact ⟨List.all_eq_true.mp hall, rfl, rfl⟩
      · cases h
  | updateRunProgress text =>
      refine ⟨fun r hr => (by cases hr), ?_⟩
      simp only [Table.exec] at h
      split at h
      · rename_i hst
        cases h
        simp [rowsOf, textsOf, hst]
      · rename_i hst
        cases h
        simp [rowsOf, textsOf, hst]

theorem rowsOf_cons (st : Statement) (sts : List Statement) :
    rowsOf (st :: sts) = rowsOf [st] ++ rowsOf sts := rowsOf_append [st] sts

theorem textsOf_cons (st : Statement) (sts : List Statement) :
    textsOf (st :: sts) = textsOf [st] ++ textsOf sts := textsOf_append [st] sts

/-- A run of statements that goes through is one statement and a run. -/
theorem execAll_cons {st : Statement} :
    t.execAll (st :: sts) = .ok t' ↔ ∃ m, t.exec st = .ok m ∧ m.execAll sts = .ok t' := by
  rw [Table.execAll, List.foldlM_cons]
  constructor
  · intro h
    cases hst : t.exec st with
    | error msg =>
        rw [hst] at h
        cases h
    | ok m =>
        rw [hst] at h
        exact ⟨m, rfl, h⟩
  · rintro ⟨m, hm, hrest⟩
    rw [hm]
    exact hrest

/-- **The log rows after a run of statements**: rows of new numbers are added
at the end. -/
theorem execAll_logs (hnd : ((rowsOf sts).map LogRow.seq).Nodup)
    (hfresh : ∀ r ∈ rowsOf sts, ∀ r' ∈ t.logs, r'.seq ≠ r.seq)
    (h : t.execAll sts = .ok t') : t'.logs = t.logs ++ rowsOf sts := by
  induction sts generalizing t with
  | nil =>
      cases h
      exact (List.append_nil _).symm
  | cons st sts ih =>
      obtain ⟨m, hm, hrest⟩ := execAll_cons.mp h
      rw [rowsOf_cons, List.map_append, List.nodup_append] at hnd
      rw [rowsOf_cons] at hfresh
      have hlogs : m.logs = t.logs ++ rowsOf [st] := by
        rw [(exec_ok hm).2.1]
        exact Verified.Rows.foldl_insertNew_of_fresh hnd.1 fun r hr =>
          Verified.Rows.find_eq_none.mpr (hfresh r (List.mem_append_left _ hr))
      have hfresh' : ∀ r ∈ rowsOf sts, ∀ r' ∈ m.logs, r'.seq ≠ r.seq := by
        intro r hr r' hr'
        rw [hlogs] at hr'
        rcases List.mem_append.mp hr' with hr' | hr'
        · exact hfresh r (List.mem_append_right _ hr) r' hr'
        · exact hnd.2.2 _ (List.mem_map_of_mem hr') _ (List.mem_map_of_mem hr)
      rw [ih hnd.2.1 hfresh' hrest, hlogs, List.append_assoc, ← rowsOf_cons]

/-- **The progress text after a run of statements** is the last one that could
be stored. -/
theorem execAll_progress (h : t.execAll sts = .ok t') :
    t'.progress = ((textsOf sts).filter storable).getLast?.or t.progress := by
  induction sts generalizing t with
  | nil =>
      cases h
      rfl
  | cons st sts ih =>
      obtain ⟨m, hm, hrest⟩ := execAll_cons.mp h
      rw [ih hrest, (exec_ok hm).2.2, textsOf_cons st sts, List.filter_append,
        List.getLast?_append, Option.or_assoc]

/-- Statements all go through exactly if every row among them can be stored. -/
theorem execAll_isOk :
    (∃ t', t.execAll sts = .ok t') ↔ ∀ r ∈ rowsOf sts, storable r.line = true := by
  induction sts generalizing t with
  | nil => exact ⟨fun _ r hr => (by cases hr), fun _ => ⟨t, rfl⟩⟩
  | cons st sts ih =>
      rw [rowsOf_cons, List.forall_mem_append]
      constructor
      · rintro ⟨t', h⟩
        obtain ⟨m, hm, hrest⟩ := execAll_cons.mp h
        exact ⟨(exec_ok hm).1, ih.mp ⟨t', hrest⟩⟩
      · rintro ⟨hfirst, hrest⟩
        have hst : ∃ m, t.exec st = .ok m := by
          cases st with
          | appendLogsBatch rows =>
              simp only [rowsOf, List.append_nil] at hfirst
              simp only [Table.exec, appendLogsBatch, if_pos (List.all_eq_true.mpr hfirst)]
              exact ⟨_, rfl⟩
          | updateRunProgress text =>
              simp only [Table.exec]
              split
              · exact ⟨_, rfl⟩
              · exact ⟨_, rfl⟩
        obtain ⟨m, hm⟩ := hst
        obtain ⟨t', ht'⟩ := (ih (t := m)).mpr hrest
        exact ⟨t', execAll_cons.mpr ⟨m, hm, ht'⟩⟩

end Exec

/-! ## What the pump stores -/

/-- The lines of stream `s` that are logged, as they are logged. -/
def loggedLines (secrets : List Text) (s : Stream) (cs : List Chunk) : List Text :=
  ((printed s cs).filter fun line => (control s line).isNone).map (redactSecrets · secrets)

/-- The texts of the progress lines, which are lines of stdout. -/
def progressLines (cs : List Chunk) : List Text :=
  (printed .stdout cs).filterMap fun line => progressText (.stdout, line)

/-- The texts of the result lines. -/
def resultLines (cs : List Chunk) : List Text :=
  (printed .stdout cs).filterMap fun line => resultText (.stdout, line)

/-- The lines of stream `s` in a table, which is in the order of `seq`. -/
def storedLines (s : Stream) (rows : List LogRow) : List Text :=
  (rows.filter (·.stream = s)).map LogRow.line

theorem storedLines_append (s : Stream) (a b : List LogRow) :
    storedLines s (a ++ b) = storedLines s a ++ storedLines s b := by
  simp [storedLines]

section Sends

variable {secrets : List Text} {before : Table} {cs : List Chunk}

theorem Lines.of_logged (l : Lines) (s : Stream) :
    Lines.of (l.filterMap (loggedText secrets)) s =
      ((Lines.of l s).filter fun line => (control s line).isNone).map
        (redactSecrets · secrets) := by
  induction l with
  | nil => rfl
  | cons x l ih =>
      obtain ⟨t, line⟩ := x
      unfold Lines.of at ih ⊢
      cases hcon : control t line with
      | none =>
          have hlog : loggedText secrets (t, line) = some (t, redactSecrets line secrets) := by
            simp only [loggedText, hcon]
          by_cases hs : t = s
          · subst hs
            simp [hlog, hcon, ih]
          · simp [hlog, hs, ih]
      | some c =>
          have hlog : loggedText secrets (t, line) = none := by simp only [loggedText, hcon]
          by_cases hs : t = s
          · subst hs
            simp [hlog, hcon, ih]
          · simp [hlog, hs, ih]

/-- A control line is a line of stdout. -/
theorem filterMap_stdout {g : Stream × Text → Option Text}
    (hg : ∀ line, g (.stderr, line) = none) (l : Lines) :
    l.filterMap g = (Lines.of l .stdout).filterMap fun line => g (.stdout, line) := by
  induction l with
  | nil => rfl
  | cons x l ih =>
      obtain ⟨t, line⟩ := x
      unfold Lines.of at ih ⊢
      cases t with
      | stdout => simp [List.filterMap_cons, ih]
      | stderr => simp [hg, ih]

/-- The rows the pump sends are the logged lines. -/
theorem statements_lines (s : Stream) :
    storedLines s (rowsOf (statements secrets before.logs cs)) = loggedLines secrets s cs := by
  obtain ⟨l, hspec, hbatch, hlines⟩ := feed_spec secrets before.logs cs
  have hrows := hspec.rows
  rw [hbatch, List.append_nil] at hrows
  rw [statements, hrows, storedLines, number_stream, loggedLines, ← hlines s]
  exact Lines.of_logged l s

/-- The progress texts it sends are those of the progress lines. -/
theorem statements_texts :
    textsOf (statements secrets before.logs cs) = progressLines cs := by
  obtain ⟨l, hspec, _, hlines⟩ := feed_spec secrets before.logs cs
  rw [statements, hspec.texts, progressLines, ← hlines .stdout]
  exact filterMap_stdout (fun _ => rfl) l

/-- The result it returns is that of the last result line. -/
theorem feed_result : (feed secrets before.logs cs).result = (resultLines cs).getLast? := by
  obtain ⟨l, hspec, _, hlines⟩ := feed_spec secrets before.logs cs
  rw [hspec.result, resultLines, ← hlines .stdout]
  rw [filterMap_stdout (fun _ => rfl) l]

theorem statements_sorted :
    (rowsOf (statements secrets before.logs cs)).Pairwise fun r r' => r.seq < r'.seq := by
  obtain ⟨l, hspec, hbatch, _⟩ := feed_spec secrets before.logs cs
  have hrows := hspec.rows
  rw [hbatch, List.append_nil] at hrows
  rw [statements, hrows]
  exact number_sorted _ _

theorem le_maxLogSeq {logs : List LogRow} {r : LogRow} (h : r ∈ logs) :
    r.seq ≤ maxLogSeq logs := by
  have hfold : ∀ (logs : List LogRow) (m : Nat), m ≤ logs.foldl (fun m r => max m r.seq) m ∧
      ∀ r ∈ logs, r.seq ≤ logs.foldl (fun m r => max m r.seq) m := by
    intro logs
    induction logs with
    | nil => exact fun m => ⟨Nat.le_refl m, fun r hr => (by cases hr)⟩
    | cons x logs ih =>
        intro m
        obtain ⟨hm, hall⟩ := ih (max m x.seq)
        refine ⟨Nat.le_trans (Nat.le_max_left _ _) hm, fun r hr => ?_⟩
        rcases List.mem_cons.mp hr with rfl | hr
        · exact Nat.le_trans (Nat.le_max_right _ _) hm
        · exact hall r hr
  exact (hfold logs 0).2 r h

/-- The rows it sends have numbers the run has not used. -/
theorem statements_fresh {r r' : LogRow}
    (hr : r ∈ rowsOf (statements secrets before.logs cs)) (hr' : r' ∈ before.logs) :
    r'.seq < r.seq := by
  obtain ⟨l, hspec, hbatch, _⟩ := feed_spec secrets before.logs cs
  have hrows := hspec.rows
  rw [hbatch, List.append_nil] at hrows
  rw [statements, hrows] at hr
  exact Nat.lt_of_le_of_lt (le_maxLogSeq hr') (lt_of_mem_number hr)

theorem rowsOf_take_append (n : Nat) (sts : List Statement) :
    rowsOf (sts.take n) ++ rowsOf (sts.drop n) = rowsOf sts := by
  rw [← rowsOf_append, List.take_append_drop]

/-- The rows of the first statements are added at the end. -/
theorem logs_of_take {n : Nat} {t : Table}
    (h : before.execAll ((statements secrets before.logs cs).take n) = .ok t) :
    t.logs = before.logs ++ rowsOf ((statements secrets before.logs cs).take n) := by
  have hsorted := @statements_sorted secrets before cs
  rw [← rowsOf_take_append n, List.pairwise_append] at hsorted
  refine execAll_logs (List.pairwise_map.mpr (hsorted.1.imp Nat.ne_of_lt)) ?_ h
  intro r hr r' hr'
  refine Nat.ne_of_lt (@statements_fresh secrets before cs _ _ ?_ hr')
  rw [← rowsOf_take_append n]
  exact List.mem_append_left _ hr

/-- The stored rows stay in the order of their numbers. -/
theorem sorted_of_take {n : Nat} {t : Table}
    (hbefore : before.logs.Pairwise fun r r' => r.seq < r'.seq)
    (h : before.execAll ((statements secrets before.logs cs).take n) = .ok t) :
    t.logs.Pairwise fun r r' => r.seq < r'.seq := by
  have hsorted := @statements_sorted secrets before cs
  rw [← rowsOf_take_append n, List.pairwise_append] at hsorted
  rw [logs_of_take h]
  refine List.pairwise_append.mpr ⟨hbefore, hsorted.1, fun r' hr' r hr => ?_⟩
  refine @statements_fresh secrets before cs _ _ ?_ hr'
  rw [← rowsOf_take_append n]
  exact List.mem_append_left _ hr

/-- **What the pump leaves behind** when it stops after some of its statements:
the first of the logged lines of each stream, and one of the progress texts. -/
theorem stored_of_take {n : Nat} {t : Table}
    (h : before.execAll ((statements secrets before.logs cs).take n) = .ok t) :
    (∀ s, ∃ ls, ls <+: loggedLines secrets s cs ∧
        storedLines s t.logs = storedLines s before.logs ++ ls) ∧
      ∃ texts, texts <+: progressLines cs ∧
        t.progress = (texts.filter storable).getLast?.or before.progress := by
  refine ⟨fun s => ⟨_, ?_, by rw [logs_of_take h, storedLines_append]⟩, _, ?_,
    execAll_progress h⟩
  · rw [← @statements_lines secrets before cs s,
      ← rowsOf_take_append n (statements secrets before.logs cs), storedLines_append]
    exact List.prefix_append _ _
  · rw [← @statements_texts secrets before cs]
    exact ⟨_, by rw [← textsOf_append, List.take_append_drop]⟩

/-- What it leaves behind when it gets to the end. -/
theorem stored_of_all {t : Table}
    (h : before.execAll (statements secrets before.logs cs) = .ok t) :
    (∀ s, storedLines s t.logs = storedLines s before.logs ++ loggedLines secrets s cs) ∧
      t.progress = ((progressLines cs).filter storable).getLast?.or before.progress := by
  have htake : before.execAll ((statements secrets before.logs cs).take
      (statements secrets before.logs cs).length) = .ok t := by
    rw [List.take_length]
    exact h
  have hlogs := logs_of_take htake
  rw [List.take_length] at hlogs
  refine ⟨fun s => ?_, ?_⟩
  · rw [hlogs, storedLines_append, statements_lines]
  · rw [execAll_progress h, statements_texts]

/-- If every line may be logged, nothing the pump sends is refused. -/
theorem storable_of_loggable (before : Table)
    (hlog : ∀ s, ∀ line ∈ printed s cs, loggable secrets s line = true) :
    ∀ r ∈ rowsOf (statements secrets before.logs cs), storable r.line = true := by
  intro r hr
  have hmem : r.line ∈ storedLines r.stream (rowsOf (statements secrets before.logs cs)) :=
    List.mem_map_of_mem (List.mem_filter.mpr ⟨hr, by simp⟩)
  rw [statements_lines] at hmem
  obtain ⟨line, hline, heq⟩ := List.mem_map.mp hmem
  obtain ⟨hline, hcon⟩ := List.mem_filter.mp hline
  have hlog := hlog r.stream line hline
  simp only [loggable, Option.isNone_iff_eq_none.mp hcon, Option.isSome_none,
    Bool.false_or] at hlog
  rw [← heq]
  exact hlog

/-- The statements up to any point go through. -/
theorem exists_execAll_take (before : Table) (n : Nat)
    (hlog : ∀ s, ∀ line ∈ printed s cs, loggable secrets s line = true) :
    ∃ t, before.execAll ((statements secrets before.logs cs).take n) = .ok t := by
  refine execAll_isOk.mpr fun r hr => storable_of_loggable before hlog r ?_
  rw [← List.take_append_drop n (statements secrets before.logs cs), rowsOf_append]
  exact List.mem_append_left _ hr

end Sends

end Dokan.Ports.PumpLogs
