import Dokan.Verified.Lines
import Dokan.Verified.Utf8
import Dokan.Verified.Rows

/-!
# Pumping the log stream of a job

`pump_logs` decodes what a container prints, cuts it into lines, takes the
control lines of stdout out, redacts secrets and stores the rest in batches.
A batch that Postgres refuses ends it with an error, and Postgres refuses text
with U+0000.  `printed` says without the pump what the lines of a stream are;
the pump fails exactly if one of them has to be stored and cannot be.

Text is a list of characters.  The metrics are left out.

## Main results

* `pumpLogs_ok` — when the pump gets to the end of its stream.
* `loggable_of_no_nul` — a stream without a byte `0` has no such line.
-/

namespace Dokan.Ports.PumpLogs

open Dokan.Verified.Lines
open Dokan.Verified.Utf8

abbrev Text := List Char

/-! ## Text -/

/-- `char::is_whitespace`. -/
def isWhitespace (c : Char) : Bool :=
  let n := c.toNat
  (9 ≤ n && n ≤ 13) || n = 0x20 || n = 0x85 || n = 0xA0 || n = 0x1680 ||
    (0x2000 ≤ n && n ≤ 0x200A) || n = 0x2028 || n = 0x2029 || n = 0x202F ||
    n = 0x205F || n = 0x3000

def trimStart (t : Text) : Text := t.dropWhile isWhitespace

/-- The text without the longest end on which `p` holds. -/
def trimEndMatches (p : Char → Bool) (t : Text) : Text :=
  (t.reverse.dropWhile p).reverse

def trim (t : Text) : Text := trimEndMatches isWhitespace (trimStart t)

def stripPrefix (pre t : Text) : Option Text :=
  if pre.isPrefixOf t then some (t.drop pre.length) else none

/-- `str::replace` for a pattern that is not empty; `skip` characters belong
to the occurrence just replaced. -/
def replaceFrom (pat rep : Text) : Nat → Text → Text
  | _, [] => []
  | skip + 1, _ :: t => replaceFrom pat rep skip t
  | 0, c :: t =>
      if pat.isPrefixOf (c :: t) then rep ++ replaceFrom pat rep (pat.length - 1) t
      else c :: replaceFrom pat rep 0 t

/-- `redact_secrets`: the secrets are at least eight bytes long. -/
def redactSecrets (line : Text) (secrets : List Text) : Text :=
  secrets.foldl (fun out s => replaceFrom s ['*', '*', '*'] 0 out) line

example : redactSecrets "key abc, abcabc".toList ["abc".toList] =
    "key ***, ******".toList := by decide

/-- Postgres takes text without U+0000. -/
def storable (t : Text) : Bool := !t.contains '\x00'

/-! ## The log table -/

inductive Stream
  | stdout
  | stderr
deriving DecidableEq, Repr

/-- A row of `logs` of one run. -/
structure LogRow where
  seq : Nat
  stream : Stream
  line : Text

/-- What Postgres says to text with U+0000. -/
def nulError : String :=
  "error returned from database: invalid byte sequence for encoding \"UTF8\": 0x00"

/-- `Db::append_logs_batch`: one `INSERT … ON CONFLICT DO NOTHING`. -/
def appendLogsBatch (logs rows : List LogRow) : Except String (List LogRow) :=
  if rows.all fun r => storable r.line then
    .ok (rows.foldl (Verified.Rows.insertNew LogRow.seq) logs)
  else .error nulError

/-- `Db::max_log_seq`. -/
def maxLogSeq (logs : List LogRow) : Nat := logs.foldl (fun m r => max m r.seq) 0

/-! ## The pump -/

/-- `bollard::LogOutput`, without its bytes. -/
inductive LogOutput
  | stdOut
  | stdErr
  | console
  | stdIn
deriving DecidableEq, Repr

def LogOutput.stream : LogOutput → Stream
  | .stdErr => .stderr
  | .stdOut | .console | .stdIn => .stdout

/-- An item of the stream Docker attaches. -/
inductive Item
  | output (kind : LogOutput) (message : List UInt8)
  /-- 404: the container is gone -/
  | gone
  | error (msg : String)

structure Pump where
  seq : Nat
  bufOut : Text
  bufErr : Text
  result : Option Text
  batch : List LogRow
  logs : List LogRow
  progress : Option Text

def Pump.buf (p : Pump) : Stream → Text
  | .stdout => p.bufOut
  | .stderr => p.bufErr

def Pump.setBuf (p : Pump) (s : Stream) (t : Text) : Pump :=
  match s with
  | .stdout => { p with bufOut := t }
  | .stderr => { p with bufErr := t }

/-- `flush`. -/
def Pump.flush (p : Pump) : Except String Pump :=
  if p.batch.isEmpty then .ok p
  else do
    let logs ← appendLogsBatch p.logs p.batch
    return { p with logs, batch := [] }

def resultMarker : Text := "::dokan:result::".toList
def progressMarker : Text := "::dokan:progress::".toList

/-- What a control line sets. -/
inductive Control
  | result (t : Text)
  | progress (t : Text)

/-- A line of stdout that starts with a marker. -/
def control (s : Stream) (line : Text) : Option Control :=
  if s = .stdout then
    match stripPrefix resultMarker (trimStart line) with
    | some rest => some (.result (trim rest))
    | none =>
        match stripPrefix progressMarker (trimStart line) with
        | some rest => some (.progress (trim rest))
        | none => none
  else none

variable (secrets : List Text)

/-- One line: a control line is taken out, any other is put into the batch.
A progress text Postgres refuses is dropped. -/
def Pump.push (p : Pump) (s : Stream) (line : Text) : Pump :=
  match control s line with
  | some (.result t) => { p with result := some t }
  | some (.progress t) => if storable t then { p with progress := some t } else p
  | none =>
      { p with
        seq := p.seq + 1
        batch := p.batch ++ [⟨p.seq + 1, s, redactSecrets line secrets⟩] }

/-- A complete line, without its newline. -/
def Pump.line (s : Stream) (p : Pump) (raw : Text) : Except String Pump :=
  let line := trimEndMatches (· = '\r') raw
  let p' := p.push secrets s line
  if (control s line).isNone && 256 ≤ p'.batch.length then p'.flush else .ok p'

/-- One chunk: its complete lines, then a flush. -/
def Pump.chunk (p : Pump) (kind : LogOutput) (message : List UInt8) :
    Except String Pump := do
  let s := kind.stream
  let c := cut '\n' (p.buf s ++ lossy message)
  let p ← c.1.foldlM (Pump.line secrets s) (p.setBuf s c.2)
  p.flush

/-- The loop over the stream. -/
def Pump.items (p : Pump) : List Item → Except String Pump
  | [] => .ok p
  | .output kind message :: rest => do
      let p ← p.chunk secrets kind message
      p.items rest
  | .gone :: _ => .ok p
  | .error msg :: _ => .error ("log stream: " ++ msg)

/-- What is left in the buffer of a stream. -/
def Pump.tail (p : Pump) (s : Stream) : Pump :=
  if (p.buf s).isEmpty then p else p.push secrets s (p.buf s)

/-- Before the first item, on the rows the run has already. -/
def Pump.start (logs : List LogRow) : Pump where
  seq := maxLogSeq logs
  bufOut := []
  bufErr := []
  result := none
  batch := []
  logs
  progress := none

/-- `pump_logs`. -/
def pumpLogs (logs : List LogRow) (items : List Item) : Except String Pump := do
  let p ← (Pump.start logs).items secrets items
  ((p.tail secrets .stdout).tail secrets .stderr).flush

/-! ## What a job prints -/

/-- A chunk of output. -/
abbrev Chunk := LogOutput × List UInt8

/-- The text of stream `s`. -/
def text (s : Stream) (chunks : List Chunk) : Text :=
  (chunks.filter fun c => c.1.stream = s).flatMap fun c => lossy c.2

/-- The lines of a text: a complete one without its line end, the unfinished
one as it is, if there is one. -/
def linesOf (t : Text) : List Text :=
  (cut '\n' t).1.map (trimEndMatches (· = '\r')) ++
    if (cut '\n' t).2.isEmpty then [] else [(cut '\n' t).2]

/-- The lines a job prints on `s`. -/
def printed (s : Stream) (chunks : List Chunk) : List Text := linesOf (text s chunks)

/-- The line is a control line, or may be stored once redacted. -/
def loggable (s : Stream) (line : Text) : Bool :=
  (control s line).isSome || storable (redactSecrets line secrets)

/-! ## When the pump gets to the end -/

section Spec

variable {secrets} {p p' : Pump} {s : Stream} {line raw : Text}

/-- Everything in the batch may be stored. -/
def Clean (p : Pump) : Prop := ∀ r ∈ p.batch, storable r.line = true

/-- No error, and nothing in the batch that cannot be stored. -/
def Ends (r : Except String Pump) : Prop := ∃ p, r = .ok p ∧ Clean p

theorem ends_ok : Ends (.ok p) ↔ Clean p := by
  constructor
  · rintro ⟨_, heq, hc⟩
    cases heq
    exact hc
  · exact fun hc => ⟨p, rfl, hc⟩

theorem ends_bind {r : Except String Pump} {f : Pump → Except String Pump} :
    Ends (r >>= f) ↔ ∃ p, r = .ok p ∧ Ends (f p) := by
  cases r with
  | error e =>
      constructor
      · rintro ⟨_, heq, _⟩
        cases heq
      · rintro ⟨_, heq, _⟩
        cases heq
  | ok p =>
      constructor
      · exact fun h => ⟨p, rfl, h⟩
      · rintro ⟨_, heq, h⟩
        cases heq
        exact h

/-- A flush that succeeds leaves an empty batch. -/
theorem flush_ok (h : p.flush = .ok p') :
    Clean p ∧ Clean p' ∧ ∀ s, p'.buf s = p.buf s := by
  unfold Pump.flush at h
  split at h
  · rename_i hempty
    cases h
    have hnil := List.isEmpty_iff.mp hempty
    have hclean : Clean p := fun r hr => by rw [hnil] at hr; cases hr
    exact ⟨hclean, hclean, fun _ => rfl⟩
  · unfold appendLogsBatch at h
    split at h
    · rename_i hall
      cases h
      refine ⟨List.all_eq_true.mp hall, (fun r hr => by cases hr), ?_⟩
      intro s
      cases s <;> rfl
    · cases h

/-- A flush fails only on what cannot be stored. -/
theorem ends_flush : Ends p.flush ↔ Clean p := by
  constructor
  · rintro ⟨p', h, _⟩
    exact (flush_ok h).1
  · intro hc
    unfold Pump.flush
    split
    · exact ends_ok.mpr hc
    · rw [appendLogsBatch, if_pos (List.all_eq_true.mpr hc)]
      exact ⟨_, rfl, fun r hr => by cases hr⟩

theorem push_buf (p : Pump) (s t : Stream) (line : Text) :
    (p.push secrets s line).buf t = p.buf t := by
  unfold Pump.push
  split
  · cases t <;> rfl
  · split
    · cases t <;> rfl
    · rfl
  · cases t <;> rfl

/-- A line adds itself to the batch, redacted, unless it is a control line. -/
theorem push_clean :
    Clean (p.push secrets s line) ↔ Clean p ∧ loggable secrets s line = true := by
  unfold Pump.push loggable
  cases hcon : control s line with
  | none =>
      simp only [Clean, List.mem_append, List.mem_singleton, Option.isSome_none,
        Bool.false_or]
      constructor
      · exact fun h => ⟨fun r hr => h r (Or.inl hr), h _ (Or.inr rfl)⟩
      · rintro ⟨hp, hl⟩ r (hr | rfl)
        · exact hp r hr
        · exact hl
  | some c =>
      cases c with
      | result t => simp [Clean]
      | progress t =>
          simp only [Option.isSome_some, Bool.true_or, and_true]
          split <;> rfl

/-- A complete line keeps the buffers. -/
theorem line_buf (h : Pump.line secrets s p raw = .ok p') (t : Stream) :
    p'.buf t = p.buf t := by
  unfold Pump.line at h
  simp only at h
  split at h
  · exact ((flush_ok h).2.2 t).trans (push_buf p s t _)
  · cases h
    exact push_buf p s t _

theorem ends_line :
    Ends (Pump.line secrets s p raw) ↔
      Clean p ∧ loggable secrets s (trimEndMatches (· = '\r') raw) = true := by
  unfold Pump.line
  simp only
  split
  · rw [ends_flush, push_clean]
  · rw [ends_ok, push_clean]

/-- The complete lines of a chunk. -/
theorem ends_lines (ls : List Text) :
    Ends (ls.foldlM (Pump.line secrets s) p) ↔
      Clean p ∧ ∀ raw ∈ ls, loggable secrets s (trimEndMatches (· = '\r') raw) = true := by
  induction ls generalizing p with
  | nil => simp [ends_ok, pure, Except.pure]
  | cons raw ls ih =>
      rw [List.foldlM_cons, ends_bind, List.forall_mem_cons, ← and_assoc,
        ← @ends_line secrets p s raw]
      constructor
      · rintro ⟨p₁, h₁, h⟩
        obtain ⟨hc, hls⟩ := ih.mp h
        exact ⟨⟨p₁, h₁, hc⟩, hls⟩
      · rintro ⟨⟨p₁, h₁, hc⟩, hls⟩
        exact ⟨p₁, h₁, ih.mpr ⟨hc, hls⟩⟩

theorem lines_buf (ls : List Text) (h : ls.foldlM (Pump.line secrets s) p = .ok p')
    (t : Stream) : p'.buf t = p.buf t := by
  induction ls generalizing p with
  | nil =>
      cases h
      rfl
  | cons raw ls ih =>
      rw [List.foldlM_cons] at h
      cases hline : Pump.line secrets s p raw with
      | error e =>
          rw [hline] at h
          cases h
      | ok p₁ =>
          rw [hline] at h
          exact (ih h).trans (line_buf hline t)

/-- A chunk is in order if its complete lines are, and leaves the unfinished
one behind. -/
theorem ends_chunk (kind : LogOutput) (message : List UInt8) :
    Ends (p.chunk secrets kind message) ↔
      Clean p ∧ ∀ raw ∈ (cut '\n' (p.buf kind.stream ++ lossy message)).1,
        loggable secrets kind.stream (trimEndMatches (· = '\r') raw) = true := by
  unfold Pump.chunk
  simp only
  rw [ends_bind]
  have hset : Clean (p.setBuf kind.stream
      (cut '\n' (p.buf kind.stream ++ lossy message)).2) ↔ Clean p := by
    cases kind.stream <;> rfl
  rw [← hset, ← ends_lines]
  constructor
  · rintro ⟨p₁, h₁, h⟩
    exact ⟨p₁, h₁, ends_flush.mp h⟩
  · rintro ⟨p₁, h₁, hc⟩
    exact ⟨p₁, h₁, ends_flush.mpr hc⟩

theorem setBuf_buf (p : Pump) (s t : Stream) (b : Text) :
    (p.setBuf s b).buf t = if t = s then b else p.buf t := by
  cases s <;> cases t <;> rfl

theorem chunk_buf {kind : LogOutput} {message : List UInt8}
    (h : p.chunk secrets kind message = .ok p') (t : Stream) :
    p'.buf t = if t = kind.stream then (cut '\n' (p.buf t ++ lossy message)).2
      else p.buf t := by
  unfold Pump.chunk at h
  simp only at h
  cases hlines : (cut '\n' (p.buf kind.stream ++ lossy message)).1.foldlM
      (Pump.line secrets kind.stream)
      (p.setBuf kind.stream (cut '\n' (p.buf kind.stream ++ lossy message)).2) with
  | error e =>
      rw [hlines] at h
      cases h
  | ok p₁ =>
      rw [hlines] at h
      rw [(flush_ok h).2.2 t, lines_buf _ hlines t, setBuf_buf]
      split_ifs with ht
      · rw [ht]
      · rfl

/-- How a stream ends: cleanly, or with its container gone. -/
def ending (torn : Bool) : List Item := if torn then [.gone] else []

theorem items_ending (torn : Bool) : p.items secrets (ending torn) = .ok p := by
  cases torn <;> rfl

theorem text_cons (kind : LogOutput) (message : List UInt8) (chunks : List Chunk) :
    text s ((kind, message) :: chunks) =
      if s = kind.stream then lossy message ++ text s chunks else text s chunks := by
  unfold text
  split_ifs with hs
  · rw [List.filter_cons_of_pos (by simp [hs]), List.flatMap_cons]
  · rw [List.filter_cons_of_neg (by simpa using Ne.symm hs)]

/-- The items of a job. -/
def itemsOf (chunks : List Chunk) (torn : Bool) : List Item :=
  chunks.map (fun c => .output c.1 c.2) ++ ending torn

/-- The lines of a stream after one more chunk: those the chunk completes, and
those of the rest. -/
theorem cut_text_cons {kind : LogOutput} {message : List UInt8} {p₁ : Pump}
    (h : p.chunk secrets kind message = .ok p₁) (s : Stream) (chunks : List Chunk) :
    cut '\n' (p.buf s ++ text s ((kind, message) :: chunks)) =
      ((if s = kind.stream then (cut '\n' (p.buf s ++ lossy message)).1 else []) ++
          (cut '\n' (p₁.buf s ++ text s chunks)).1,
        (cut '\n' (p₁.buf s ++ text s chunks)).2) := by
  rw [text_cons, chunk_buf h s]
  split_ifs with hs
  · rw [← List.append_assoc, cut_append]
  · rfl

/-- **The loop** is in order if every complete line of both streams is,
however they are cut into chunks, and leaves the unfinished ones behind. -/
theorem ends_items (chunks : List Chunk) (torn : Bool)
    (hopen : ∀ s, (cut '\n' (p.buf s)).1 = []) :
    (Ends (p.items secrets (itemsOf chunks torn)) ↔
      Clean p ∧ ∀ s, ∀ raw ∈ (cut '\n' (p.buf s ++ text s chunks)).1,
        loggable secrets s (trimEndMatches (· = '\r') raw) = true) ∧
    ∀ p', p.items secrets (itemsOf chunks torn) = .ok p' →
      ∀ s, p'.buf s = (cut '\n' (p.buf s ++ text s chunks)).2 := by
  induction chunks generalizing p with
  | nil =>
      have hitems : p.items secrets (itemsOf [] torn) = .ok p := items_ending torn
      have htext : ∀ s, p.buf s ++ text s [] = p.buf s := fun s => List.append_nil _
      rw [hitems, ends_ok]
      refine ⟨?_, ?_⟩
      · simp [htext, hopen]
      · rintro p' heq s
        cases heq
        rw [htext, cut_snd_of_fst_nil (hopen s)]
  | cons c chunks ih =>
      obtain ⟨kind, message⟩ := c
      have hitems : p.items secrets (itemsOf ((kind, message) :: chunks) torn) =
          p.chunk secrets kind message >>= fun p => p.items secrets (itemsOf chunks torn) :=
        rfl
      have hopen' : ∀ p₁, p.chunk secrets kind message = .ok p₁ →
          ∀ s, (cut '\n' (p₁.buf s)).1 = [] := by
        intro p₁ h₁ s
        rw [chunk_buf h₁ s]
        split_ifs
        · exact cut_cut_snd _
        · exact hopen s
      rw [hitems]
      refine ⟨?_, ?_⟩
      · rw [ends_bind]
        constructor
        · rintro ⟨p₁, h₁, hrest⟩
          obtain ⟨hc₁, hlines⟩ := (ih (hopen' p₁ h₁)).1.mp hrest
          obtain ⟨hc, hchunk⟩ := (ends_chunk kind message).mp ⟨p₁, h₁, hc₁⟩
          refine ⟨hc, fun s raw hraw => ?_⟩
          rw [cut_text_cons h₁] at hraw
          rcases List.mem_append.mp hraw with hraw | hraw
          · split_ifs at hraw with hs
            · subst hs
              exact hchunk raw hraw
            · cases hraw
          · exact hlines s raw hraw
        · rintro ⟨hc, hall⟩
          have hchunk : Ends (p.chunk secrets kind message) := by
            refine (ends_chunk kind message).mpr ⟨hc, fun raw hraw => ?_⟩
            refine hall kind.stream raw ?_
            rw [text_cons, if_pos rfl, ← List.append_assoc, cut_append]
            exact List.mem_append_left _ hraw
          obtain ⟨p₁, h₁, hc₁⟩ := hchunk
          refine ⟨p₁, h₁, (ih (hopen' p₁ h₁)).1.mpr ⟨hc₁, fun s raw hraw => ?_⟩⟩
          refine hall s raw ?_
          rw [cut_text_cons h₁]
          exact List.mem_append_right _ hraw
      · intro p' h s
        cases h₁ : p.chunk secrets kind message with
        | error e =>
            rw [h₁] at h
            cases h
        | ok p₁ =>
            rw [h₁] at h
            rw [cut_text_cons h₁, (ih (hopen' p₁ h₁)).2 p' h s]

theorem tail_buf (p : Pump) (s t : Stream) : (p.tail secrets s).buf t = p.buf t := by
  unfold Pump.tail
  split
  · rfl
  · exact push_buf p s t _

theorem tail_clean (p : Pump) (s : Stream) :
    Clean (p.tail secrets s) ↔
      Clean p ∧ ((p.buf s).isEmpty = false → loggable secrets s (p.buf s) = true) := by
  unfold Pump.tail
  split
  · rename_i hempty
    simp [hempty]
  · rename_i hsome
    rw [push_clean]
    simp [hsome]

/-- The lines of a text may be logged if its complete lines may and, if there
is one, its unfinished line. -/
theorem linesOf_loggable (t : Text) :
    (∀ line ∈ linesOf t, loggable secrets s line = true) ↔
      (∀ raw ∈ (cut '\n' t).1,
          loggable secrets s (trimEndMatches (· = '\r') raw) = true) ∧
        ((cut '\n' t).2.isEmpty = false → loggable secrets s (cut '\n' t).2 = true) := by
  unfold linesOf
  rw [List.forall_mem_append, List.forall_mem_map]
  cases hempty : (cut '\n' t).2.isEmpty with
  | true => simp
  | false => simp

/-- **The pump** gets to the end of what a job prints exactly if every line of
it is a control line or may be stored. -/
theorem pumpLogs_ok (logs : List LogRow) (chunks : List Chunk) (torn : Bool) :
    (∃ p, pumpLogs secrets logs (itemsOf chunks torn) = .ok p) ↔
      ∀ s, ∀ line ∈ printed s chunks, loggable secrets s line = true := by
  have hbufs : ∀ s, (Pump.start logs).buf s = [] := fun s => by cases s <;> rfl
  have hopen : ∀ s, (cut '\n' ((Pump.start logs).buf s)).1 = [] := fun s => by
    rw [hbufs]
    rfl
  obtain ⟨hends, hleft⟩ := @ends_items secrets _ chunks torn hopen
  simp only [hbufs, List.nil_append] at hends hleft
  have hstart : Clean (Pump.start logs) := fun r hr => by cases hr
  have hok : (∃ p, pumpLogs secrets logs (itemsOf chunks torn) = .ok p) ↔
      ∃ p, (Pump.start logs).items secrets (itemsOf chunks torn) = .ok p ∧
        Clean ((p.tail secrets .stdout).tail secrets .stderr) := by
    unfold pumpLogs
    cases hitems : (Pump.start logs).items secrets (itemsOf chunks torn) with
    | error e =>
        constructor
        · rintro ⟨_, heq⟩
          cases heq
        · rintro ⟨_, heq, _⟩
          cases heq
    | ok p =>
        constructor
        · rintro ⟨p', hp'⟩
          exact ⟨p, rfl, (flush_ok hp').1⟩
        · rintro ⟨_, heq, hc⟩
          cases heq
          obtain ⟨p', hp', _⟩ := ends_flush.mpr hc
          exact ⟨p', hp'⟩
  have htails : ∀ p, (Pump.start logs).items secrets (itemsOf chunks torn) = .ok p →
      (Clean ((p.tail secrets .stdout).tail secrets .stderr) ↔ Clean p ∧ ∀ s,
        (cut '\n' (text s chunks)).2.isEmpty = false →
          loggable secrets s (cut '\n' (text s chunks)).2 = true) := by
    intro p hp
    rw [tail_clean, tail_clean, tail_buf, hleft p hp, hleft p hp, and_assoc]
    refine and_congr_right fun _ => ⟨?_, fun h => ⟨h .stdout, h .stderr⟩⟩
    rintro ⟨hout, herr⟩ s
    cases s with
    | stdout => exact hout
    | stderr => exact herr
  rw [hok]
  constructor
  · rintro ⟨p, hp, hc⟩ s
    obtain ⟨hclean, htail⟩ := (htails p hp).mp hc
    obtain ⟨_, hlines⟩ := hends.mp ⟨p, hp, hclean⟩
    exact (linesOf_loggable _).mpr ⟨hlines s, htail s⟩
  · intro hall
    have hboth := fun s => (linesOf_loggable (text s chunks)).mp (hall s)
    obtain ⟨p, hp, hclean⟩ := hends.mpr ⟨hstart, fun s => (hboth s).1⟩
    exact ⟨p, hp, (htails p hp).mpr ⟨hclean, fun s => (hboth s).2⟩⟩

/-! ## Output without a byte `0` -/

theorem mem_of_mem_trimEnd {f : Char → Bool} {t : Text} {c : Char}
    (h : c ∈ trimEndMatches f t) : c ∈ t := by
  rw [trimEndMatches, List.mem_reverse] at h
  exact List.mem_reverse.mp ((List.dropWhile_suffix f).subset h)

theorem mem_replaceFrom {pat rep : Text} {skip : Nat} {t : Text} {c : Char}
    (h : c ∈ replaceFrom pat rep skip t) : c ∈ t ∨ c ∈ rep := by
  fun_induction replaceFrom pat rep skip t with
  | case1 => exact Or.inl h
  | case2 skip x t ih => exact (ih h).imp_left (List.mem_cons_of_mem _)
  | case3 x t hpre ih =>
      rcases List.mem_append.mp h with h | h
      · exact Or.inr h
      · exact (ih h).imp_left (List.mem_cons_of_mem _)
  | case4 x t hpre ih =>
      rcases List.mem_cons.mp h with rfl | h
      · exact Or.inl List.mem_cons_self
      · exact (ih h).imp_left (List.mem_cons_of_mem _)

/-- Redaction adds nothing but asterisks. -/
theorem mem_redactSecrets {line : Text} {c : Char}
    (h : c ∈ redactSecrets line secrets) : c ∈ line ∨ c = '*' := by
  unfold redactSecrets at h
  induction secrets generalizing line with
  | nil => exact Or.inl h
  | cons s secrets ih =>
      rcases ih h with h | h
      · rcases mem_replaceFrom h with h | h
        · exact Or.inl h
        · exact Or.inr (by simpa using h)
      · exact Or.inr h

theorem mem_linesOf {t : Text} {c : Char} (h : line ∈ linesOf t) (hc : c ∈ line) :
    c ∈ t := by
  rcases List.mem_append.mp h with h | h
  · obtain ⟨raw, hraw, rfl⟩ := List.mem_map.mp h
    exact mem_of_mem_cut (Or.inl ⟨raw, hraw, mem_of_mem_trimEnd hc⟩)
  · split_ifs at h
    · cases h
    · cases List.mem_singleton.mp h
      exact mem_of_mem_cut (Or.inr hc)

/-- A job that prints no byte `0` prints no line that cannot be stored. -/
theorem loggable_of_no_nul {chunks : List Chunk}
    (hno : ∀ c ∈ chunks, (0 : UInt8) ∉ c.2) (h : line ∈ printed s chunks) :
    loggable secrets s line = true := by
  have hline : '\x00' ∉ line := by
    intro hc
    obtain ⟨chunk, hin, hnul⟩ := List.mem_flatMap.mp (mem_linesOf h hc)
    exact hno chunk (List.mem_filter.mp hin).1 ((nul_mem_lossy _).mp hnul)
  have hred : '\x00' ∉ redactSecrets line secrets := by
    intro hc
    rcases mem_redactSecrets hc with hc | hc
    · exact hline hc
    · cases hc
  simp [loggable, storable, hred]

end Spec

end Dokan.Ports.PumpLogs
