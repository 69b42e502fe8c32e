import Dokan.Verified.ContentStore
import Dokan.Ports.BlobLiveness
import Dokan.Ports.CaptureOutput
import Dokan.Ports.ExecCleanup
import Dokan.Ports.TableRows

/-!
# Files from run to run

`upload_blob` and `capture_output` store bytes under their SHA-256;
`materialize_input` writes the bytes under a run's handles below `/input`,
`download_blob` hands them out.  A file that one run left in `/output` is mounted
in another by its handle, some time later, and whatever sweeps, uploads and
captures come in between.

The tables are those of `BlobLiveness`, which holds no bytes; here the bytes lie
beside them in a content store.  Every statement is a step, and attempts go one
file at a time.  Two attempts of one run on one host have one directory.  A
statement or a write that fails ends its attempt.

`stored` and `replies` are history and decide nothing.

## Main results

* `blobs_step` — which blobs a statement on the tables leaves.
* `captureOutput_eq_mapOf`, `materialize_goes_on` — one file after the other, the
  attempts do what `capture_output` and `materialize_input` do.
-/

namespace Dokan.Ports.Artifacts

open Dokan.Verified
open Dokan.Verified.Json
open Dokan.Verified.ContentStore
open Dokan.Ports.Receipt (Bytes Crypto sha256Hex)
open Dokan.Ports.RunRow (NewRun)
open Dokan.Ports.RunTable (RunId Table Row)
open Dokan.Ports.RunScript (mentions validName)
open Dokan.Ports.CaptureOutput (Path entryOf entriesOf objectOf)

/-! ## What is modelled -/

/-- What the machine does not choose. -/
structure World where
  crypto : Crypto
  /-- `STANDARD.decode` and `STANDARD.encode` -/
  decode : String → Except String Bytes
  encode : Bytes → String

/-- The handle of some bytes. -/
abbrev World.handle (W : World) : Bytes → String := sha256Hex W.crypto

/-- `MAX_BLOB_BYTES`. -/
def maxBlobBytes : Nat := 32 * 1024 * 1024

/-- `validate_blob_bytes`. -/
def validateBlobBytes (len : Nat) : Except String Unit :=
  if len = 0 then .error "blob is empty (0 bytes)"
  else if len > maxBlobBytes then
    .error ("blob too large: " ++ toString len ++ " bytes (cap " ++ toString maxBlobBytes ++
      " bytes / 32 MiB)")
  else .ok ()

/-- Where bytes come from. -/
inductive Source
  | upload
  /-- a file below `/output` -/
  | output (r : RunId) (path : Path)

/-- What `put_blob` was called with. -/
structure Stored where
  source : Source
  bytes : Bytes

/-- What an attempt is at. -/
inductive Phase
  /-- the files that `materialize_input` has not come to -/
  | materialize (left : List (String × Value))
  | exec
  /-- the files `capture_output` has not come to, those it has stored, and its map -/
  | capture (left done : List (Path × Bytes)) (map : List (String × Value))
  | ended

/-- An execution of a run that a worker has claimed. -/
structure Attempt where
  host : Nat
  run : RunId
  /-- what `claim_run` returned of the row -/
  job : NewRun
  phase : Phase

/-- What the two tools answer. -/
inductive Reply
  | invalidBase64 (e : String)
  | invalidBlob (e : String)
  | uploaded (data handle : String) (size : Nat)
  | unknownBlobHandle (handle : String)
  | downloaded (handle data : String) (size : Nat)
deriving DecidableEq

structure Sys (W : World) where
  tables : BlobLiveness.Sys
  contents : Store W.handle
  attempts : Nat → Option Attempt
  /-- the directory `runs/<id>/input` of a host -/
  input : Nat → RunId → String → Option Bytes
  stored : List Stored
  replies : List Reply

namespace Sys

variable {W : World}

def init : Sys W where
  tables := BlobLiveness.init
  contents := .empty
  attempts := fun _ => none
  input := fun _ _ _ => none
  stored := []
  replies := []

/-- Someone has stored the bytes. -/
def HasStored (s : Sys W) (bytes : Bytes) : Prop := ∃ o ∈ s.stored, o.bytes = bytes

/-- `Db::put_blob`, with the bytes. -/
def put (s : Sys W) (o : Stored) : Sys W :=
  { s with
    tables := s.tables.putBlob (W.handle o.bytes)
    contents := s.contents.put o.bytes
    stored := o :: s.stored }

/-- `Db::get_blob`. -/
def get (s : Sys W) (sha : String) : Option Bytes × Sys W :=
  (s.contents.get? sha, { s with tables := s.tables.getBlob sha })

def reply (s : Sys W) (r : Reply) : Sys W := { s with replies := r :: s.replies }

def setPhase (s : Sys W) (k : Nat) (a : Attempt) (phase : Phase) : Sys W :=
  { s with attempts := Function.update s.attempts k (some { a with phase }) }

/-! ## Tools -/

/-- `upload_blob`. -/
def uploadBlob (s : Sys W) (data : String) : Sys W :=
  match W.decode data with
  | .error e => s.reply (.invalidBase64 ("data is not valid base64: " ++ e))
  | .ok bytes =>
      match validateBlobBytes bytes.length with
      | .error e => s.reply (.invalidBlob e)
      | .ok () =>
          (s.put ⟨.upload, bytes⟩).reply (.uploaded data (W.handle bytes) bytes.length)

/-- `download_blob`. -/
def downloadBlob (s : Sys W) (handle : String) : Sys W :=
  match s.get handle with
  | (some bytes, s) => s.reply (.downloaded handle (W.encode bytes) bytes.length)
  | (none, s) => s.reply (.unknownBlobHandle handle)

/-! ## Attempts -/

/-- `fs::write` of a file below `/input`. -/
def writeInput (s : Sys W) (a : Attempt) (name : String) (bytes : Bytes) : Sys W :=
  { s with input := fun host r n =>
      if host = a.host ∧ r = a.run ∧ n = name then some bytes else s.input host r n }

/-- The next turn of the loop of `materialize_input`. -/
def materialize (s : Sys W) (k : Nat) (a : Attempt) : List (String × Value) → Sys W
  | [] => s.setPhase k a .exec
  | (name, shaV) :: left =>
      if !validName name then s.setPhase k a .ended
      else
        match shaV.asStr? with
        | none => s.setPhase k a .ended
        | some sha =>
            match s.get sha with
            | (none, s) => s.setPhase k a .ended
            | (some bytes, s) => (s.writeInput a name bytes).setPhase k a (.materialize left)

/-- `set_run_output_blobs`, if the map has an entry. -/
def recordOutput (s : Sys W) (r : RunId) (map : List (String × Value)) : Sys W :=
  match objectOf map with
  | none => s
  | some v =>
      { s with tables := { s.tables with table := { s.tables.table with
          runs := s.tables.table.runs.map (Row.write s.tables.table.now (.setOutputBlobs r v)) } } }

/-- The next turn of the loop of `capture_output`, and what `exec_job` does with the
map. -/
def capture (s : Sys W) (k : Nat) (a : Attempt) (done : List (Path × Bytes))
    (map : List (String × Value)) : List (Path × Bytes) → Sys W
  | [] => (s.recordOutput a.run map).setPhase k a .ended
  | f :: left =>
      let e := entryOf W.crypto f
      (s.put ⟨.output a.run f.1, f.2⟩).setPhase k a
        (.capture left (done ++ [f]) (CaptureOutput.insertKey map e.1 e.2))

/-- `remove_dir_all` of the directory of a run. -/
def removeInput (s : Sys W) (a : Attempt) : Sys W :=
  { s with input := fun host r n =>
      if host = a.host ∧ r = a.run then none else s.input host r n }

end Sys

/-! ## The machine -/

inductive Label
  /-- a statement that neither stores a blob nor records an output -/
  | tables (a : BlobLiveness.Label)
  | uploadBlob (data : String)
  | downloadBlob (handle : String)
  /-- a worker of a host claims a run -/
  | claim (k host : Nat) (r : RunId)
  | materialize (k : Nat)
  /-- the job is over; the files `capture_output` will meet, in its order -/
  | exit (k : Nat) (files : List (Path × Bytes))
  | capture (k : Nat)
  /-- an error, a crash -/
  | stop (k : Nat)
  | removeInput (k : Nat)

/-- What others do to the tables. -/
def others : BlobLiveness.Label → Bool
  | .putBlob _ | .getBlob _ | .table (.write (.setOutputBlobs _ _)) => false
  | _ => true

/-- The blobs a statement of others takes. -/
def taken (t : BlobLiveness.Sys) : BlobLiveness.Label → String → Bool
  | .gcBlobs age => t.doomed age
  | _ => fun _ => false

/-- The row `claim_run` may take. -/
def claimable (t : Table) (r : RunId) : Option Row :=
  t.runs.find? fun row => row.id = r ∧ row.run.status = .pending

def step {W : World} (s : Sys W) : Label → Option (Sys W)
  | .tables a =>
      if others a then
        (BlobLiveness.step s.tables a).map fun t =>
          { s with tables := t, contents := s.contents.sweep (taken s.tables a) }
      else none
  | .uploadBlob data => some (s.uploadBlob data)
  | .downloadBlob handle => some (s.downloadBlob handle)
  | .claim k host r =>
      if (s.attempts k).isNone then
        (claimable s.tables.table r).bind fun row =>
          (BlobLiveness.step s.tables (.table (.write (.claim r)))).map fun t =>
            { s with
              tables := t
              attempts := Function.update s.attempts k
                (some
                  { host, run := r
                    job := row.run.toNewRun
                    phase := .materialize (entriesOf row.run.inputBlobs) }) }
      else none
  | .materialize k =>
      (s.attempts k).bind fun a =>
        match a.phase with
        | .materialize left => some (s.materialize k a left)
        | _ => none
  | .exit k files =>
      (s.attempts k).bind fun a =>
        match a.phase with
        | .exec =>
            some (s.setPhase k a (if a.job.captureOutput then .capture files [] [] else .ended))
        | _ => none
  | .capture k =>
      (s.attempts k).bind fun a =>
        match a.phase with
        | .capture left done map => some (s.capture k a done map left)
        | _ => none
  | .stop k => (s.attempts k).map fun a => s.setPhase k a .ended
  | .removeInput k =>
      (s.attempts k).bind fun a =>
        match a.phase with
        | .ended => some (s.removeInput a)
        | _ => none

/-! ## The tables -/

/-- Which blobs are there after a statement of others. -/
theorem blobs_step {t t' : BlobLiveness.Sys} {a : BlobLiveness.Label}
    (h : BlobLiveness.step t a = some t') (ha : others a = true) (sha : String) :
    t'.blobs sha = if taken t a sha then none else t.blobs sha := by
  cases a with
  | putBlob sha | getBlob sha => cases ha
  | gcBlobs age =>
      cases h
      rfl
  | table b =>
      obtain ⟨table, -, rfl⟩ := Option.map_eq_some_iff.mp h
      rfl
  | check k =>
      obtain ⟨holder, -, hs⟩ := Option.bind_eq_some_iff.mp h
      unfold BlobLiveness.Sys.check at hs
      split at hs
      · cases hs
      · cases hs
        rfl
  | insertRun k n | insertSchedule k scriptId =>
      obtain ⟨holder, -, hs⟩ := Option.bind_eq_some_iff.mp h
      obtain ⟨-, hs⟩ := Option.ite_none_right_eq_some.mp hs
      cases hs
      rfl
  | load k id =>
      obtain ⟨-, hs⟩ := Option.ite_none_right_eq_some.mp h
      obtain ⟨sc, -, rfl⟩ := Option.map_eq_some_iff.mp hs
      rfl
  | reproduce k r =>
      obtain ⟨-, hs⟩ := Option.ite_none_right_eq_some.mp h
      obtain ⟨row, -, rfl⟩ := Option.map_eq_some_iff.mp hs
      rfl
  | resolveFiles k role files =>
      obtain ⟨-, hs⟩ := Option.ite_none_right_eq_some.mp h
      cases hs
      rfl
  | drop k | disable id | deleteScript id =>
      cases h
      rfl

theorem isSome_putBlob (t : BlobLiveness.Sys) (sha x : String) :
    ((t.putBlob sha).blobs x).isSome = (decide (x = sha) || (t.blobs x).isSome) := by
  simp only [BlobLiveness.Sys.putBlob, Function.update_apply]
  split_ifs with hx
  · simp [hx]
  · simp [hx]

theorem isSome_getBlob (t : BlobLiveness.Sys) (sha x : String) :
    ((t.getBlob sha).blobs x).isSome = (t.blobs x).isSome := by
  unfold BlobLiveness.Sys.getBlob
  split_ifs with hsome
  · rw [isSome_putBlob, Bool.or_eq_right_iff_imp]
    intro hx
    rwa [of_decide_eq_true hx]
  · rfl

@[simp] theorem getBlob_table (t : BlobLiveness.Sys) (sha : String) :
    (t.getBlob sha).table = t.table := by
  unfold BlobLiveness.Sys.getBlob
  split_ifs <;> rfl

/-! ## The map of a capture -/

/-- The map of files stored in this order. -/
def mapOf (C : Crypto) (fs : List (Path × Bytes)) : List (String × Value) :=
  (fs.map (entryOf C)).foldl (fun map e => CaptureOutput.insertKey map e.1 e.2) []

theorem mapOf_concat (C : Crypto) (fs : List (Path × Bytes)) (f : Path × Bytes) :
    mapOf C (fs ++ [f]) =
      CaptureOutput.insertKey (mapOf C fs) (entryOf C f).1 (entryOf C f).2 := by
  rw [mapOf, List.map_append, List.foldl_append]
  rfl

theorem mem_insertKey {map : List (String × Value)} {key : String} {v : Value}
    {e : String × Value} (h : e ∈ CaptureOutput.insertKey map key v) : e = (key, v) ∨ e ∈ map := by
  rw [CaptureOutput.insertKey, List.mem_orderedInsert] at h
  exact h.imp_right fun h => (List.mem_filter.mp h).1

/-- An entry is that of a file. -/
theorem exists_of_mem_mapOf {C : Crypto} {fs : List (Path × Bytes)} {e : String × Value}
    (h : e ∈ mapOf C fs) : ∃ f ∈ fs, entryOf C f = e := by
  induction fs using List.reverseRecOn with
  | nil => cases h
  | append_singleton fs f ih =>
      rw [mapOf_concat] at h
      rcases mem_insertKey h with rfl | h
      · exact ⟨f, List.mem_append_right _ List.mem_cons_self, rfl⟩
      · obtain ⟨g, hg, he⟩ := ih h
        exact ⟨g, List.mem_append_left _ hg, he⟩

/-- What `capture_output` returns for a tree is the map of its files, in the order of
the walk. -/
theorem captureOutput_eq_mapOf (C : Crypto) (t : CaptureOutput.OutputTree) :
    ∃ fs : List (Path × Bytes), fs.Perm t.files ∧
      CaptureOutput.captureOutput C (fun _ => .ok ()) t = .ok (objectOf (mapOf C fs)) := by
  obtain ⟨fs, hperm, hres⟩ := CaptureOutput.captureOutput_eq_ok C (fun _ => .ok ()) t
  exact ⟨fs, hperm, (hres _).mpr ⟨fun _ _ => rfl, rfl⟩⟩

theorem setPhase_self {W : World} (s : Sys W) (k : Nat) (a : Attempt) (phase : Phase) :
    (s.setPhase k a phase).attempts k = some { a with phase } := Function.update_self _ _ _

/-- A turn of `materialize_input` goes on to the next file where the loop of `ExecCleanup`
finds its file ready. -/
theorem materialize_goes_on {W : World} {s : Sys W} {X : ExecCleanup.World}
    (hget : ∀ name sha, X.getBlob name sha = .ok (s.contents.get? sha))
    (hwrite : ∀ name, X.write name = .ok ()) (k : Nat) (a : Attempt) (p : String × Value)
    (left : List (String × Value)) :
    ((s.materialize k a (p :: left)).attempts k).map Attempt.phase = some (.materialize left) ↔
      ExecCleanup.FileReady X p := by
  obtain ⟨name, shaV⟩ := p
  unfold Sys.materialize ExecCleanup.FileReady
  cases hname : validName name with
  | false => simp [hname, setPhase_self]
  | true =>
      cases hsha : shaV.asStr? with
      | none => simp [hname, hsha, setPhase_self]
      | some sha =>
          cases hfound : s.contents.get? sha with
          | none => simp [hname, hsha, hfound, hget, Sys.get, setPhase_self]
          | some bytes => simp [hname, hsha, hfound, hget, hwrite, Sys.get, setPhase_self]

theorem mentions_iff {blobs : Option Value} {sha : String} :
    mentions blobs sha = true ↔ ∃ name, (name, .str sha) ∈ entriesOf blobs := by
  match blobs with
  | some (.obj map) =>
      simp [mentions, entriesOf, Value.asStr?_eq_some]
  | none | some .null | some (.bool _) | some (.num _) | some (.str _) | some (.arr _) =>
      simp [mentions, entriesOf]

end Dokan.Ports.Artifacts
