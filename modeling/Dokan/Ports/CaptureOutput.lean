import Dokan.Ports.OutputDir
import Dokan.Ports.ReceiptVerify
import Dokan.Verified.TreeWalk
import Dokan.Verified.Utf8

/-!
# The files a run has written

`capture_output` walks `/output` with a stack of directories, stores every regular file
that is not too large as a blob, and maps its relative path to the handle.  A path is
bytes, and the key of the map is a text: `to_string_lossy` writes U+FFFD for what is not
UTF-8, and `Map::insert` keeps one entry for each key.

The tree is at rest, and all of it can be read.

## Main results

* `captureOutput_eq_ok` — what is returned, and when.
* `captures_iff` — when it is every file under its own path.
-/

namespace Dokan.Ports.CaptureOutput

open Dokan.Verified
open Dokan.Verified.Json
open Dokan.Verified.TreeWalk
open Dokan.Verified.Utf8
open Dokan.Ports.OutputDir (maxOutputFileBytes)
open Dokan.Ports.Receipt

/-! ## The directory -/

/-- The name of an entry: neither empty nor `.` nor `..`, with no `/` and no NUL. -/
@[ext]
structure FileName where
  bytes : Bytes
  valid : bytes ≠ [] ∧ bytes ≠ [46] ∧ bytes ≠ [46, 46] ∧ 47 ∉ bytes ∧ 0 ∉ bytes
deriving DecidableEq

/-- An entry that is no directory. -/
inductive Item
  | file (bytes : Bytes)
  | symlink
  /-- a socket, a pipe or a device -/
  | other

/-- What is in `/output`; the entries of one directory have different names. -/
structure OutputTree where
  entries : List (FileName × Tree FileName Item)
  distinct : (entries.map Prod.fst).Nodup
  named : NamedAll entries

/-- A path below `/output`. -/
abbrev Path := List FileName

/-- The bytes of a relative path. -/
def relBytes (path : Path) : Bytes := [47].intercalate (path.map FileName.bytes)

/-! ## Capturing -/

/-- `Db::put_blob`, with the answer of its `INSERT`. -/
def putBlob (C : Crypto) (insert : Except String Unit) (bytes : Bytes) :
    Except String (String × Int) :=
  match insert with
  | .error e => .error e
  | .ok () => .ok (sha256Hex C bytes, bytes.length)

/-- `rel`: `to_string_lossy` of the relative path. -/
def rel (path : Path) : String := String.ofList (lossy (relBytes path))

/-- `Map::insert`; the map is ordered by its keys. -/
def insertKey (map : List (String × Value)) (key : String) (v : Value) :
    List (String × Value) :=
  (map.filter fun e => e.1 ≠ key).orderedInsert (fun a b => a.1 ≤ b.1) (key, v)

/-- The body of the loop, for an entry that is no directory. -/
def captureEntry (C : Crypto) (db : Path → Except String Unit) (map : List (String × Value))
    (path : Path) : Item → Except String (List (String × Value))
  | .symlink | .other => .ok map
  | .file bytes =>
      if bytes.length > maxOutputFileBytes then .ok map
      else
        match putBlob C (db path) bytes with
        | .error e => .error e
        | .ok (sha, _) => .ok (insertKey map (rel path) (.str sha))

/-- What is returned for a map. -/
def objectOf (map : List (String × Value)) : Option Value :=
  if map.isEmpty then none else some (.obj map)

/-- `capture_output`; `db` is the answer to the `INSERT` of each file. -/
def captureOutput (C : Crypto) (db : Path → Except String Unit) (t : OutputTree) :
    Except String (Option Value) :=
  match walk (captureEntry C db) [] [] [([], t.entries)] [] with
  | .error e => .error e
  | .ok map => .ok (objectOf map)

/-! ## What is to be captured -/

/-- A regular file that is not too large. -/
def captured? : Path × Item → Option (Path × Bytes)
  | (path, .file bytes) => if bytes.length ≤ maxOutputFileBytes then some (path, bytes) else none
  | _ => none

/-- The files of the tree that are to be captured. -/
def OutputTree.files (t : OutputTree) : List (Path × Bytes) :=
  (leavesOf [] t.entries).filterMap captured?

/-- The entries of the map that is returned. -/
def entriesOf : Option Value → List (String × Value)
  | some (.obj map) => map
  | _ => []

/-- Each file has one entry, its key the path of the file and its value the handle, and
there is no other entry. -/
def Exact (C : Crypto) (t : OutputTree) (res : Except String (Option Value)) : Prop :=
  ∃ blobs, res = .ok blobs ∧
    ((entriesOf blobs).map fun e => (utf8 e.1, e.2)).Perm
      (t.files.map fun f => (relBytes f.1, .str (sha256Hex C f.2)))

/-- Two files do not share an entry. -/
def Apart (t : OutputTree) : Prop :=
  ∀ f ∈ t.files, ∀ g ∈ t.files, rel f.1 = rel g.1 → f = g

/-- The bytes are those of a text. -/
def IsText (bytes : Bytes) : Prop := ∃ s : String, utf8 s = bytes

/-! ## The map -/

/-- The entry of a file. -/
def entryOf (C : Crypto) (f : Path × Bytes) : String × Value := (rel f.1, .str (sha256Hex C f.2))

theorem insertKey_perm {map : List (String × Value)} {key : String} (v : Value)
    (hkey : key ∉ map.map Prod.fst) : (insertKey map key v).Perm ((key, v) :: map) := by
  have hfilter : (map.filter fun e => e.1 ≠ key) = map := by
    refine List.filter_eq_self.mpr fun e he => decide_eq_true ?_
    rintro rfl
    exact hkey (List.mem_map_of_mem he)
  rw [insertKey, hfilter]
  exact List.perm_orderedInsert _ _ _

/-- Inserted one by one under different keys, all entries are there. -/
theorem foldl_insertKey_perm (es map : List (String × Value))
    (hnd : ((es ++ map).map Prod.fst).Nodup) :
    (es.foldl (fun m e => insertKey m e.1 e.2) map).Perm (es ++ map) := by
  induction es generalizing map with
  | nil => exact .refl _
  | cons e es ih =>
      have hinsert : (insertKey map e.1 e.2).Perm (e :: map) := by
        refine insertKey_perm e.2 ?_
        simp only [List.cons_append, List.map_cons, List.nodup_cons, List.map_append,
          List.mem_append, not_or] at hnd
        exact hnd.1.2
      have hperm : (es ++ insertKey map e.1 e.2).Perm (e :: es ++ map) :=
        (hinsert.append_left es).trans List.perm_middle
      exact (ih _ ((hperm.map Prod.fst).nodup_iff.mpr hnd)).trans hperm

section Capture

variable {C : Crypto} {db : Path → Except String Unit}

theorem captureEntry_of_none {p : Path × Item} (hskip : captured? p = none)
    (map : List (String × Value)) : captureEntry C db map p.1 p.2 = .ok map := by
  obtain ⟨path, item⟩ := p
  cases item with
  | symlink => rfl
  | other => rfl
  | file bytes =>
      have hsize : bytes.length > maxOutputFileBytes := by simpa [captured?] using hskip
      exact if_pos hsize

theorem captureEntry_of_some {p : Path × Item} {f : Path × Bytes} (hfile : captured? p = some f)
    (map : List (String × Value)) :
    captureEntry C db map p.1 p.2 =
      (db f.1).map fun _ => insertKey map (entryOf C f).1 (entryOf C f).2 := by
  obtain ⟨path, item⟩ := p
  cases item with
  | symlink => cases hfile
  | other => cases hfile
  | file bytes =>
      obtain ⟨hsize, rfl⟩ : bytes.length ≤ maxOutputFileBytes ∧ (path, bytes) = f := by
        simpa [captured?] using hfile
      rw [captureEntry, if_neg (by omega)]
      cases hdb : db path <;> rfl

variable (C db)

/-- The loop succeeds exactly if every file is stored, and inserts their entries. -/
theorem foldlM_captureEntry (order : List (Path × Item)) (map map' : List (String × Value)) :
    order.foldlM (fun m p => captureEntry C db m p.1 p.2) map = .ok map' ↔
      (∀ f ∈ order.filterMap captured?, db f.1 = .ok ()) ∧
        map' = ((order.filterMap captured?).map (entryOf C)).foldl
          (fun m e => insertKey m e.1 e.2) map := by
  induction order generalizing map with
  | nil => simp [pure, Except.pure, eq_comm]
  | cons p order ih =>
      rw [List.foldlM_cons]
      cases hfile : captured? p with
      | none =>
          rw [captureEntry_of_none hfile, List.filterMap_cons_none hfile]
          exact ih map
      | some f =>
          rw [captureEntry_of_some hfile, List.filterMap_cons_some hfile, List.forall_mem_cons]
          cases hdb : db f.1 with
          | error e => simp [Except.map, bind, Except.bind]
          | ok u => simpa [Except.map, bind, Except.bind] using ih _

/-- **What is returned.**  The files are met in some order; if every one of them is
stored, their entries have been inserted in that order, and else there is an error. -/
theorem captureOutput_eq_ok (t : OutputTree) :
    ∃ fs : List (Path × Bytes), fs.Perm t.files ∧ ∀ blobs,
      captureOutput C db t = .ok blobs ↔
        (∀ f ∈ t.files, db f.1 = .ok ()) ∧
          blobs = objectOf ((fs.map (entryOf C)).foldl (fun m e => insertKey m e.1 e.2) []) := by
  obtain ⟨order, hperm, hwalk⟩ := walk_eq (captureEntry C db) [] [] [([], t.entries)] []
  have hfiles : (order.filterMap captured?).Perm t.files := by
    refine List.Perm.filterMap captured? ?_
    simpa [leavesOf, Stack.leaves] using hperm
  refine ⟨order.filterMap captured?, hfiles, fun blobs => ?_⟩
  have hloop := foldlM_captureEntry C db order []
  have hstored : (∀ f ∈ t.files, db f.1 = .ok ()) ↔
      ∀ f ∈ order.filterMap captured?, db f.1 = .ok () := by simp only [hfiles.mem_iff]
  rw [captureOutput, hwalk, hstored]
  cases hres : order.foldlM (fun m p => captureEntry C db m p.1 p.2) [] with
  | error e =>
      have hno : ¬∀ f ∈ order.filterMap captured?, db f.1 = .ok () := by
        intro h
        have hok := (hloop _).mpr ⟨h, rfl⟩
        rw [hres] at hok
        cases hok
      refine iff_of_false ?_ fun h => hno h.1
      intro hok
      cases hok
  | ok map =>
      obtain ⟨hall, rfl⟩ := (hloop map).mp hres
      rw [Except.ok.injEq]
      exact ⟨fun h => ⟨hall, h.symm⟩, fun h => h.2.symm⟩

end Capture

theorem entriesOf_objectOf (map : List (String × Value)) : entriesOf (objectOf map) = map := by
  cases map <;> rfl

/-! ## Keys -/

/-- A text is the lossy text of its bytes. -/
theorem lossy_utf8 (s : String) : lossy (utf8 s) = s.toList := by
  have hbytes : utf8 s = encode s.toList := by
    rw [encode, ← utf8_ofList, String.ofList_toList]
  rw [hbytes, lossy_encode]

theorem utf8_rel_iff {path : Path} : utf8 (rel path) = relBytes path ↔ IsText (relBytes path) := by
  constructor
  · intro h
    exact ⟨rel path, h⟩
  · rintro ⟨s, hs⟩
    rw [rel, ← hs, lossy_utf8, String.ofList_toList]

/-- A path is read off its bytes. -/
theorem relBytes_inj {p q : Path} (hp : p ≠ []) (hq : q ≠ []) (h : relBytes p = relBytes q) :
    p = q := by
  have hsplit : ∀ r : Path, r ≠ [] → (relBytes r).splitOn 47 = r.map FileName.bytes := by
    intro r hr
    refine List.splitOn_intercalate 47 ?_ (by simpa using hr)
    intro name hname
    obtain ⟨file, -, rfl⟩ := List.mem_map.mp hname
    exact file.valid.2.2.2.1
  have hnames := hsplit p hp
  rw [h, hsplit q hq] at hnames
  exact ((List.map_injective_iff.mpr fun _ _ => FileName.ext) hnames).symm

theorem captured?_path {p : Path × Item} {f : Path × Bytes} (h : captured? p = some f) :
    f.1 = p.1 := by
  obtain ⟨path, item⟩ := p
  cases item with
  | symlink => cases h
  | other => cases h
  | file bytes =>
      obtain ⟨-, rfl⟩ : bytes.length ≤ maxOutputFileBytes ∧ (path, bytes) = f := by
        simpa [captured?] using h
      rfl

section Tree

variable {t : OutputTree}

/-- A file of the tree has a name. -/
theorem path_ne_nil {f : Path × Bytes} (hf : f ∈ t.files) : f.1 ≠ [] := by
  obtain ⟨p, hp, hfile⟩ := List.mem_filterMap.mp hf
  obtain ⟨name, -, hbelow⟩ := prefix_of_mem_leavesOf hp
  rw [captured?_path hfile]
  rintro hnil
  simp [hnil] at hbelow

/-- Two files of the tree have different paths. -/
theorem nodup_paths : (t.files.map Prod.fst).Nodup := by
  have hleaves : ((leavesOf [] t.entries).map Prod.fst).Nodup := nodup_leavesOf t.distinct t.named
  rw [List.Nodup, List.pairwise_map] at hleaves ⊢
  refine hleaves.filterMap captured? fun p q hne f hf g hg => ?_
  rwa [captured?_path hf, captured?_path hg]

/-- Where all paths are texts, files with one key are one file. -/
theorem eq_of_rel_eq (htext : ∀ f ∈ t.files, IsText (relBytes f.1)) {f g : Path × Bytes}
    (hf : f ∈ t.files) (hg : g ∈ t.files) (h : rel f.1 = rel g.1) : f = g := by
  have hbytes : relBytes f.1 = relBytes g.1 := by
    rw [← utf8_rel_iff.mpr (htext f hf), ← utf8_rel_iff.mpr (htext g hg), h]
  have hpath : f.1 = g.1 := relBytes_inj (path_ne_nil hf) (path_ne_nil hg) hbytes
  exact List.inj_on_of_nodup_map nodup_paths hf hg hpath

end Tree

/-! ## When every file is captured under its own path -/

section Main

variable {C : Crypto} {db : Path → Except String Unit} {t : OutputTree}

theorem IsText.of_exact {res : Except String (Option Value)} (h : Exact C t res)
    {f : Path × Bytes} (hf : f ∈ t.files) : IsText (relBytes f.1) := by
  obtain ⟨blobs, -, hperm⟩ := h
  have hmem := hperm.mem_iff.mpr (List.mem_map_of_mem hf)
  obtain ⟨e, -, he⟩ := List.mem_map.mp hmem
  exact ⟨e.1, congrArg Prod.fst he⟩

/-- With distinct keys that are the paths, the map is what it should be. -/
theorem exact_of_texts (hstored : ∀ f ∈ t.files, db f.1 = .ok ())
    (htext : ∀ f ∈ t.files, IsText (relBytes f.1)) : Exact C t (captureOutput C db t) := by
  obtain ⟨fs, hperm, hres⟩ := captureOutput_eq_ok C db t
  refine ⟨_, (hres _).mpr ⟨hstored, rfl⟩, ?_⟩
  rw [entriesOf_objectOf]
  have hnd : (fs.map (entryOf C)).map Prod.fst |>.Nodup := by
    rw [List.map_map]
    have hfs : fs.Nodup := hperm.nodup_iff.mpr nodup_paths.of_map
    refine hfs.map_on fun f hf g hg h => ?_
    exact eq_of_rel_eq htext (hperm.mem_iff.mp hf) (hperm.mem_iff.mp hg) h
  have hmap := foldl_insertKey_perm (fs.map (entryOf C)) [] (by simpa using hnd)
  rw [List.append_nil] at hmap
  refine (hmap.map _).trans ?_
  rw [List.map_map]
  refine List.Perm.trans (List.Perm.of_eq ?_) (hperm.map _)
  refine List.map_congr_left fun f hf => ?_
  exact congrArg (·, _) (utf8_rel_iff.mpr (htext f (hperm.mem_iff.mp hf)))

end Main

/-- **Output capture is exact** where every file is stored and every path is the bytes of
a text, and only there. -/
theorem captures_iff (C : Crypto) (db : Path → Except String Unit) (t : OutputTree) :
    Exact C t (captureOutput C db t) ∧ Apart t ↔
      (∀ f ∈ t.files, db f.1 = .ok ()) ∧ ∀ f ∈ t.files, IsText (relBytes f.1) := by
  constructor
  · rintro ⟨hexact, -⟩
    obtain ⟨fs, -, hres⟩ := captureOutput_eq_ok C db t
    obtain ⟨blobs, hblobs, -⟩ := id hexact
    exact ⟨((hres blobs).mp hblobs).1, fun f hf => IsText.of_exact hexact hf⟩
  · rintro ⟨hstored, htext⟩
    exact ⟨exact_of_texts hstored htext, fun f hf g hg => eq_of_rel_eq htext hf hg⟩

/-- A name of one byte that begins no character. -/
def strayName (b : UInt8) (hb : b = 0xFE ∨ b = 0xFF) : FileName :=
  ⟨[b], by rcases hb with rfl | rfl <;> decide⟩

theorem rel_strayName {b : UInt8} (hb : b = 0xFE ∨ b = 0xFF) :
    rel [strayName b hb] = "\uFFFD" := by
  rcases hb with rfl | rfl <;> decide

/-- Two files of such names. -/
def strayNames : OutputTree where
  entries :=
    [ (strayName 0xFF (by decide), .leaf (.file [1]))
    , (strayName 0xFE (by decide), .leaf (.file [2])) ]
  distinct := by decide
  named := ⟨trivial, trivial, trivial⟩

/-- Both names become U+FFFD, and the second file takes the entry of the first. -/
theorem captureOutput_strayNames :
    captureOutput demoHash (fun _ => .ok ()) strayNames =
        .ok (some (.obj [("\uFFFD", .str (sha256Hex demoHash [2]))])) ∧
      ¬Exact demoHash strayNames (captureOutput demoHash (fun _ => .ok ()) strayNames) ∧
      ¬Apart strayNames := by
  have hfiles : strayNames.files =
      [([strayName 0xFF (by decide)], [1]), ([strayName 0xFE (by decide)], [2])] := by
    simp [strayNames, OutputTree.files, leavesOf, Tree.leaves, captured?, maxOutputFileBytes]
  refine ⟨?_, ?_, ?_⟩
  · simp [captureOutput, strayNames, walk, captureEntry, putBlob, rel_strayName,
      maxOutputFileBytes, insertKey, objectOf]
  · intro h
    have htext : IsText (relBytes [strayName 0xFF (by decide)]) :=
      IsText.of_exact h (hfiles ▸ List.mem_cons_self)
    have hback := utf8_rel_iff.mpr htext
    rw [rel_strayName] at hback
    revert hback
    decide
  · intro h
    have hsame := h (_, [1]) (hfiles ▸ List.mem_cons_self) (_, [2])
      (hfiles ▸ List.mem_cons_of_mem _ List.mem_cons_self) (by rw [rel_strayName, rel_strayName])
    revert hsame
    decide

end Dokan.Ports.CaptureOutput
