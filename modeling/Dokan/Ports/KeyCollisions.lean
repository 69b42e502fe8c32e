import Dokan.Verified.Rendering
import Dokan.Ports.RunScript
import Dokan.Ports.RecallSound

/-!
# Requests of one cache key

`run_cache_key` writes the byte `0x1f` between its fields, and a script or the
name of a file may have it.  `canonical_input_blobs` writes a colon behind a
name and a comma behind a handle, and a name may have both.  So a request with
two files or more shares its key with one that has a single file of a long name,
and one with a single file may share it with a request of another script.

SHA-256 is taken as injective: what is left are the bytes under it.

## Main results

* `canonicalInputBlobs_blobs` — the files of an accepted request are rendered as
  they are.
* `key_eq_iff` — what two requests of one key have in common.
* `own_key_iff` — the requests that share their key with no other.
-/

namespace Dokan.Ports.KeyCollisions

open Dokan.Verified.Json
open Dokan.Verified.JsonText
open Dokan.Verified.Framing
open Dokan.Ports.Receipt
open Dokan.Ports.CacheKey
open Dokan.Ports.FlowDriver (runtimeSpec)
open Dokan.Ports.RunScript (validName containsText)
open Dokan.Ports.Provenance (sep_not_mem_runtime scopedMessage scopedSha demoWorld)

/-! ## Requests -/

/-- The stored blobs. -/
structure Blobs where
  /-- `Db::blob_exists` -/
  blobExists : String → Bool
  /-- a handle is the hash of its blob -/
  handle : ∀ h, blobExists h = true → ∃ bs : Bytes, bs.length = 32 ∧ h = hex bs

/-- The refusals of `resolve_files`. -/
inductive FileError
  | invalidFileName (name : String)
  | unknownBlobHandle (name handle : String)

/-- The loop of `resolve_files`. -/
def resolveFrom (B : Blobs) :
    List (String × String) → List (String × Value) → Except FileError (List (String × Value))
  | [], map => return map
  | (name, handle) :: left, map =>
      if !validName name then throw (.invalidFileName name)
      else if !B.blobExists handle then throw (.unknownBlobHandle name handle)
      else resolveFrom B left (Value.insertKey name (.str handle) map)

/-- `mcp::resolve_files` of a map that is there. -/
def resolveFiles (B : Blobs) (files : List (String × String)) :
    Except FileError (Option Value) :=
  if files.isEmpty then return none
  else do return some (.obj (← resolveFrom B files []))

/-- What a run is asked for. -/
structure Request where
  runtime : String
  imageDigest : String
  source : String
  input : Value
  secretsGen : Int
  /-- the members of a `HashMap`, in its order -/
  files : List (String × String)

/-- The map that goes into the key. -/
def Request.blobs (B : Blobs) (r : Request) : Option Value :=
  match resolveFiles B r.files with
  | .ok blobs => blobs
  | .error _ => none

def Request.key (C : Crypto) (plain : Char → Bool) (B : Blobs) (r : Request) : String :=
  runCacheKey C plain r.runtime r.imageDigest r.source r.input r.secretsGen (r.blobs B)

/-- A request that comes to its key. -/
structure Request.Accepted (B : Blobs) (r : Request) : Prop where
  runtime : (runtimeSpec r.runtime).isSome = true
  imageDigest : (31 : UInt8) ∉ utf8 r.imageDigest
  input : Proper r.input
  secretsGen : -2 ^ 63 ≤ r.secretsGen ∧ r.secretsGen < 2 ^ 63
  names : (r.files.map Prod.fst).Nodup
  files : ∃ blobs, resolveFiles B r.files = .ok blobs

/-- Requests of the same run. -/
structure Request.Same (r r' : Request) : Prop where
  runtime : r'.runtime = r.runtime
  imageDigest : r'.imageDigest = r.imageDigest
  source : r'.source = r.source
  input : r'.input.print = r.input.print
  secretsGen : r'.secretsGen = r.secretsGen
  files : r'.files.Perm r.files

/-! ## What is accepted -/

/-- A name and a handle that `resolve_files` takes. -/
def Taken (B : Blobs) (p : String × String) : Prop :=
  validName p.1 = true ∧ B.blobExists p.2 = true

theorem resolveFrom_ok {B : Blobs} {files : List (String × String)}
    {map m : List (String × Value)} (h : resolveFrom B files map = .ok m) :
    (∀ p ∈ files, Taken B p) ∧
      m = files.foldl (fun m p => Value.insertKey p.1 (.str p.2) m) map := by
  induction files generalizing map with
  | nil =>
      cases h
      exact ⟨fun p hp => (List.not_mem_nil hp).elim, rfl⟩
  | cons p files ih =>
      rw [resolveFrom] at h
      split_ifs at h with hname hblob
      obtain ⟨htaken, hm⟩ := ih h
      rw [Bool.not_eq_true', Bool.not_eq_false] at hname hblob
      exact ⟨List.forall_mem_cons.mpr ⟨⟨hname, hblob⟩, htaken⟩, hm⟩

theorem resolveFrom_of_taken {B : Blobs} {files : List (String × String)}
    (h : ∀ p ∈ files, Taken B p) (map : List (String × Value)) :
    resolveFrom B files map =
      .ok (files.foldl (fun m p => Value.insertKey p.1 (.str p.2) m) map) := by
  induction files generalizing map with
  | nil => rfl
  | cons p files ih =>
      obtain ⟨⟨hname, hblob⟩, hrest⟩ := List.forall_mem_cons.mp h
      rw [resolveFrom, hname, hblob]
      exact ih hrest _

/-- `resolve_files` takes the maps all of whose members it takes. -/
theorem accepts_iff {B : Blobs} {files : List (String × String)} :
    (∃ blobs, resolveFiles B files = .ok blobs) ↔ ∀ p ∈ files, Taken B p := by
  constructor
  · rintro ⟨blobs, h⟩
    rw [resolveFiles] at h
    split_ifs at h with hempty
    · rw [List.isEmpty_iff.mp hempty]
      exact fun p hp => (List.not_mem_nil hp).elim
    · obtain ⟨m, hm, -⟩ := bind_eq_ok h
      exact (resolveFrom_ok hm).1
  · intro h
    rw [resolveFiles]
    split_ifs with hempty
    · exact ⟨none, rfl⟩
    · rw [resolveFrom_of_taken h]
      exact ⟨_, rfl⟩

/-- A new key is put among the others. -/
theorem insertKey_perm {k : String} {v : Value} {m : List (String × Value)}
    (h : k ∉ m.map Prod.fst) : (Value.insertKey k v m).Perm ((k, v) :: m) := by
  induction m with
  | nil => exact List.Perm.refl _
  | cons q m ih =>
      rw [List.map_cons, List.mem_cons, not_or] at h
      rw [Value.insertKey, if_neg h.1]
      split_ifs
      · exact List.Perm.refl _
      · exact ((ih h.2).cons q).trans (List.Perm.swap _ _ _)

theorem foldl_insertKey_perm {files : List (String × String)} (map : List (String × Value))
    (hnodup : (files.map Prod.fst).Nodup)
    (hdisjoint : ∀ p ∈ files, p.1 ∉ map.map Prod.fst) :
    (files.foldl (fun m p => Value.insertKey p.1 (.str p.2) m) map).Perm
      (files.map (fun p => (p.1, Value.str p.2)) ++ map) := by
  induction files generalizing map with
  | nil => exact List.Perm.refl _
  | cons p files ih =>
      obtain ⟨hp, hfiles⟩ := List.forall_mem_cons.mp hdisjoint
      obtain ⟨hnew, hnodup'⟩ := List.nodup_cons.mp hnodup
      have hinsert := insertKey_perm (v := Value.str p.2) hp
      refine (ih _ hnodup' fun q hq hmem => ?_).trans ?_
      · rcases List.mem_cons.mp ((hinsert.map Prod.fst).subset hmem) with heq | hmem
        · exact hnew (heq ▸ List.mem_map_of_mem hq)
        · exact hfiles q hq hmem
      · exact (hinsert.append_left _).trans List.perm_middle

/-- **The files of an accepted request** are rendered as they are. -/
theorem canonicalInputBlobs_blobs {B : Blobs} {r : Request} (h : r.Accepted B) :
    canonicalInputBlobs (r.blobs B) = render r.files := by
  have htaken := accepts_iff.mp h.files
  have hperm := foldl_insertKey_perm [] h.names fun p _ => List.not_mem_nil
  rw [List.append_nil] at hperm
  rw [Request.blobs, resolveFiles, resolveFrom_of_taken htaken]
  cases hfiles : r.files with
  | nil => rfl
  | cons p files =>
      rw [hfiles] at hperm
      refine render_congr ((hperm.map _).trans (List.Perm.of_eq ?_))
      rw [List.map_map]
      exact List.map_id _

/-! ## The bytes under the hash -/

/-- The fields behind the digest, the text `rest` last. -/
def cut (plain : Char → Bool) (source : String) (input : Value) (secretsGen : Int)
    (rest : String) : Bytes :=
  utf8 source ++ 31 :: (utf8 (canonicalJson plain input) ++ 31 ::
    (leBytes secretsGen ++ 31 :: utf8 rest))

theorem cut_append (plain : Char → Bool) (source : String) (input : Value) (gen : Int)
    (s t : String) :
    cut plain source input gen (s ++ t) = cut plain source input gen s ++ utf8 t := by
  simp only [cut, utf8_append, List.append_assoc, List.cons_append]

section Keys

variable {C : Crypto} {plain : Char → Bool} {B : Blobs} {r r' : Request}

/-- **What two requests of one key have in common.** -/
theorem key_eq_iff (hsha : Function.Injective C.sha256) (hr : r.Accepted B)
    (hr' : r'.Accepted B) :
    r'.key C plain B = r.key C plain B ↔ r'.runtime = r.runtime ∧
      r'.imageDigest = r.imageDigest ∧
        cut plain r'.source r'.input r'.secretsGen (render r'.files) =
          cut plain r.source r.input r.secretsGen (render r.files) := by
  have hmessage : ∀ q : Request, q.Accepted B →
      q.key C plain B = sha256Hex C (utf8 q.runtime ++ 31 :: (utf8 q.imageDigest ++ 31 ::
        cut plain q.source q.input q.secretsGen (render q.files))) := by
    intro q hq
    rw [Request.key, runCacheKey, keyMessage, canonicalInputBlobs_blobs hq]
    rfl
  have hfield : ∀ {a b s t : Bytes}, (31 : UInt8) ∉ a → (31 : UInt8) ∉ b →
      a ++ 31 :: s = b ++ 31 :: t → a = b ∧ s = t := by
    intro a b s t ha hb heq
    obtain ⟨hab, -, hst⟩ := append_cons_inj (p := fun x : UInt8 => x ≠ 31)
      (fun x hx hx31 => ha (hx31 ▸ hx)) (fun x hx hx31 => hb (hx31 ▸ hx)) (fun hne => hne rfl)
      (fun hne => hne rfl) heq
    exact ⟨hab, hst⟩
  rw [hmessage r hr, hmessage r' hr']
  constructor
  · intro h
    obtain ⟨hruntime, h⟩ := hfield (sep_not_mem_runtime hr'.runtime)
      (sep_not_mem_runtime hr.runtime) (sha256Hex_inj (fun heq => hsha heq) h)
    obtain ⟨hdigest, h⟩ := hfield hr'.imageDigest hr.imageDigest h
    exact ⟨utf8_inj hruntime, utf8_inj hdigest, h⟩
  · rintro ⟨hruntime, hdigest, hcut⟩
    rw [hruntime, hdigest, hcut]

/-- Requests of one key and one source differ in their files alone. -/
theorem fields_of_source (hsha : Function.Injective C.sha256)
    (hplain : ∀ c, plain c = true → 32 ≤ c.toNat) (hr : r.Accepted B) (hr' : r'.Accepted B)
    (hkey : r'.key C plain B = r.key C plain B) (hsource : r'.source = r.source) :
    r'.input.print = r.input.print ∧ r'.secretsGen = r.secretsGen ∧
      render r'.files = render r.files := by
  have hmessage := sha256Hex_inj (fun heq => hsha heq) hkey
  obtain ⟨-, -, -, hinput, hgen, hfiles⟩ := keyMessage_inj hplain
    (sep_not_mem_runtime hr'.runtime) (sep_not_mem_runtime hr.runtime) hr'.imageDigest
    hr.imageDigest (.inl hsource) hr'.input hr.input hr'.secretsGen hr.secretsGen hmessage
  rw [canonicalInputBlobs_blobs hr, canonicalInputBlobs_blobs hr'] at hfiles
  exact ⟨hinput, hgen, hfiles⟩

end Keys

/-! ## Names and handles -/

/-- A text without a slash and without two dots in a row. -/
def NameChars (l : List Char) : Prop :=
  '/' ∉ l ∧ l.IsChain fun a b => ¬ (a = '.' ∧ b = '.')

theorem containsText_dots (l : List Char) :
    containsText ['.', '.'] l = false ↔ l.IsChain fun a b => ¬ (a = '.' ∧ b = '.') := by
  induction l with
  | nil => exact ⟨fun _ => List.IsChain.nil, fun _ => rfl⟩
  | cons a l ih =>
      have hcons : containsText ['.', '.'] (a :: l) =
          (['.', '.'].isPrefixOf (a :: l) || containsText ['.', '.'] l) := by
        rw [containsText, List.tails_cons, List.any_cons]
        rfl
      rw [hcons, Bool.or_eq_false_iff, ih]
      cases l with
      | nil => simp [List.isPrefixOf]
      | cons b l =>
          have hdots : ['.', '.'].isPrefixOf (a :: b :: l) = (a == '.' && b == '.') := by
            rw [List.isPrefixOf, List.isPrefixOf, List.isPrefixOf, Bool.and_true,
              BEq.comm (a := a), BEq.comm (a := b)]
          rw [List.isChain_cons_cons, hdots]
          refine and_congr_left fun _ => ?_
          rw [Bool.and_eq_false_imp]
          simp

theorem validName_iff (n : String) : validName n = true ↔ n ≠ "" ∧ NameChars n.toList := by
  rw [validName, NameChars, ← containsText_dots, Bool.and_eq_true, Bool.and_eq_true, and_assoc]
  simp

/-- A text is cut at a character that is no part of what is refused. -/
theorem nameChars_append_cons {c : Char} (hdot : c ≠ '.') (hslash : c ≠ '/')
    (l l' : List Char) : NameChars (l ++ c :: l') ↔ NameChars l ∧ NameChars l' := by
  have hchain : (l ++ c :: l').IsChain (fun a b => ¬ (a = '.' ∧ b = '.')) ↔
      l.IsChain (fun a b => ¬ (a = '.' ∧ b = '.')) ∧
        l'.IsChain fun a b => ¬ (a = '.' ∧ b = '.') := by
    rw [List.isChain_append, List.isChain_cons]
    constructor
    · exact fun h => ⟨h.1, h.2.1.2⟩
    · intro ⟨hl, hl'⟩
      refine ⟨hl, ⟨fun y _ h => hdot h.1, hl'⟩, fun x _ y hy h => ?_⟩
      cases hy
      exact hdot h.2
  rw [NameChars, hchain, List.mem_append, List.mem_cons, NameChars, NameChars]
  simp only [not_or, hslash.symm, not_false_eq_true, true_and]
  tauto

theorem nameChars_handle (bs : Bytes) : NameChars (hex bs).toList := by
  have hdigit : ∀ i : Fin 16, Value.hexDigit i ≠ '/' ∧ Value.hexDigit i ≠ '.' := by decide
  have hall : ∀ c ∈ (hex bs).toList, c ≠ '/' ∧ c ≠ '.' := by
    intro c hc
    obtain ⟨i, rfl⟩ := exists_digit_of_mem_hex hc
    exact hdigit i
  refine ⟨fun h => (hall _ h).1 rfl, List.Pairwise.isChain ?_⟩
  refine List.pairwise_of_forall_mem_list fun a ha b _ => ?_
  rintro ⟨hdot, -⟩
  exact (hall a ha).2 hdot

/-- A member, a comma and a name are a name if the two names are. -/
theorem validName_entry {B : Blobs} {p : String × String} (hp : B.blobExists p.2 = true)
    (n : String) :
    validName (entry p ++ "," ++ n) = true ↔ NameChars p.1.toList ∧ NameChars n.toList := by
  obtain ⟨bs, -, hbs⟩ := B.handle p.2 hp
  have hchars : (entry p ++ "," ++ n).toList =
      p.1.toList ++ ':' :: (p.2.toList ++ ',' :: n.toList) := by
    simp [entry]
  have hne : entry p ++ "," ++ n ≠ "" := by
    intro h
    have hnil := congrArg String.toList h
    rw [hchars] at hnil
    simp at hnil
  have hvalue : NameChars p.2.toList := hbs ▸ nameChars_handle bs
  rw [validName_iff, hchars, nameChars_append_cons (by decide) (by decide),
    nameChars_append_cons (by decide) (by decide)]
  exact ⟨fun h => ⟨h.2.1, h.2.2.2⟩, fun h => ⟨hne, h.1, hvalue, h.2⟩⟩

/-- The name that stands for several members is one. -/
theorem validName_joinName {B : Blobs} (p : String × String) (ps : List (String × String))
    (h : ∀ q ∈ p :: ps, Taken B q) : validName (joinName (p :: ps)) = true := by
  induction ps generalizing p with
  | nil => exact (h p List.mem_cons_self).1
  | cons q ps ih =>
      obtain ⟨hname, hblob⟩ := h p List.mem_cons_self
      obtain ⟨-, hchars⟩ := (validName_iff p.1).mp hname
      have hrest := ih q fun x hx => h x (List.mem_cons_of_mem p hx)
      exact (validName_entry hblob _).mpr ⟨hchars, ((validName_iff _).mp hrest).2⟩

/-- A handle has 64 bytes, none of them the separator. -/
theorem utf8_handle {B : Blobs} {h : String} (hh : B.blobExists h = true) :
    (utf8 h).length = 64 ∧ (31 : UInt8) ∉ utf8 h := by
  obtain ⟨bs, hlength, rfl⟩ := B.handle h hh
  have hdigit : ∀ i : Fin 16, hexDigitByte i ≠ 31 := by decide
  rw [utf8_hex, hexBytes]
  constructor
  · rw [List.length_flatMap]
    simp [hlength]
  · intro hmem
    obtain ⟨b, -, hb⟩ := List.mem_flatMap.mp hmem
    have hlt := b.toNat_lt
    simp only [List.mem_cons, List.not_mem_nil, or_false] at hb
    rcases hb with hb | hb
    · exact hdigit ⟨b.toNat / 16, by omega⟩ hb.symm
    · exact hdigit ⟨b.toNat % 16, by omega⟩ hb.symm

/-! ## Requests that share a key -/

/-- The name of a file reads as another member, a comma and the rest of the name,
and the two are a map in that order. -/
def Splits (B : Blobs) (name handle : String) : Prop :=
  ∃ p rest, name = entry p ++ "," ++ rest ∧ p.1 ≠ "" ∧ rest ≠ "" ∧ p.1 ≠ rest ∧
    B.blobExists p.2 = true ∧ entry p ≤ entry (rest, handle)

/-- Source, input, generation and name are cut at other separators into a source,
an input, eight bytes and a name. -/
def Recut (plain : Char → Bool) (r : Request) (name : String) : Prop :=
  ∃ source input secretsGen name', source ≠ r.source ∧ Proper input ∧
    (-2 ^ 63 ≤ secretsGen ∧ secretsGen < 2 ^ 63) ∧ validName name' = true ∧
      cut plain source input secretsGen name' = cut plain r.source r.input r.secretsGen name

/-- No other request is written as this one. -/
def Sole (plain : Char → Bool) (B : Blobs) (r : Request) : Prop :=
  r.files = [] ∨ ∃ name handle, r.files = [(name, handle)] ∧ ¬ Splits B name handle ∧
    ¬ Recut plain r name

section Sharing

variable {plain : Char → Bool} {B : Blobs}

/-- A single file is cut off again. -/
theorem cut_entry_inj {source source' : String} {input input' : Value} {gen gen' : Int}
    {n n' h h' : String} (hh : B.blobExists h = true) (hh' : B.blobExists h' = true)
    (heq : cut plain source' input' gen' (entry (n', h')) =
      cut plain source input gen (entry (n, h))) :
    cut plain source' input' gen' n' = cut plain source input gen n ∧ h' = h := by
  have hlength : (utf8 h').length = (utf8 h).length := by
    rw [(utf8_handle hh).1, (utf8_handle hh').1]
  rw [entry, entry, cut_append, cut_append, cut_append, cut_append] at heq
  obtain ⟨hfront, hhandle⟩ := List.append_inj' heq hlength
  exact ⟨List.append_cancel_right hfront, utf8_inj hhandle⟩

/-- Files or none is seen at the end. -/
theorem cut_entry_ne_empty {source source' : String} {input input' : Value} {gen gen' : Int}
    {n h : String} (hh : B.blobExists h = true) :
    cut plain source' input' gen' "" ≠ cut plain source input gen (entry (n, h)) := by
  intro heq
  obtain ⟨hlength, hfree⟩ := utf8_handle hh
  have hshape : cut plain source' input' gen' "" = (utf8 source' ++ 31 ::
      (utf8 (canonicalJson plain input') ++ 31 :: leBytes gen')) ++ [31] := by
    simp [cut, utf8]
  have hlast : (cut plain source' input' gen' "").getLast? = some 31 := by
    rw [hshape, List.getLast?_concat]
  have hne : utf8 h ≠ [] := by
    intro hnil
    rw [hnil] at hlength
    cases hlength
  rw [heq, entry, cut_append, List.getLast?_append_of_ne_nil _ hne] at hlast
  exact hfree (List.mem_of_getLast? hlast)

/-- Without files the fields are cut off from behind. -/
theorem source_of_cut_empty (hplain : ∀ c, plain c = true → 32 ≤ c.toNat)
    {source source' : String} {input input' : Value} {gen gen' : Int} (hinput : Proper input)
    (hinput' : Proper input')
    (heq : cut plain source' input' gen' "" = cut plain source input gen "") :
    source' = source := by
  have hshape : ∀ (s : String) (v : Value) (g : Int), cut plain s v g "" =
      (utf8 s ++ 31 :: utf8 (canonicalJson plain v)) ++ 31 :: (leBytes g ++ [31]) := by
    intro s v g
    rw [cut, List.append_assoc, List.cons_append]
    rfl
  have hlength : (31 :: (leBytes gen' ++ [(31 : UInt8)])).length =
      (31 :: (leBytes gen ++ [(31 : UInt8)])).length := by
    simp only [List.length_cons, List.length_append, length_leBytes]
  rw [hshape, hshape] at heq
  have hfront := (List.append_inj' heq hlength).1
  have hfree : ∀ v, Proper v → ∀ x ∈ utf8 (canonicalJson plain v), x ≠ 31 := by
    rintro v hv x hx rfl
    exact sep_not_mem_canonicalJson hplain hv hx
  exact utf8_inj (append_cons_inj_last (hfree input' hinput') (hfree input hinput)
    (fun hne => hne rfl) (fun hne => hne rfl) hfront).1

end Sharing

section Own

variable {C : Crypto} {plain : Char → Bool} {B : Blobs} {r : Request}

/-- A request with a map of the same rendering has the same key. -/
theorem exists_other (hsha : Function.Injective C.sha256) (hr : r.Accepted B)
    {source : String} {input : Value} {gen : Int} (files : List (String × String))
    (hinput : Proper input) (hgen : -2 ^ 63 ≤ gen ∧ gen < 2 ^ 63)
    (hnodup : (files.map Prod.fst).Nodup) (htaken : ∀ p ∈ files, Taken B p)
    (hcut : cut plain source input gen (render files) =
      cut plain r.source r.input r.secretsGen (render r.files)) :
    ∃ r' : Request, r'.Accepted B ∧ r'.key C plain B = r.key C plain B ∧
      r'.source = source ∧ r'.files = files := by
  have haccepted : Request.Accepted B { r with source, input, secretsGen := gen, files } :=
    { runtime := hr.runtime
      imageDigest := hr.imageDigest
      input := hinput
      secretsGen := hgen
      names := hnodup
      files := accepts_iff.mpr htaken }
  exact ⟨_, haccepted, (key_eq_iff hsha hr haccepted).mpr ⟨rfl, rfl, hcut⟩, rfl, rfl⟩

/-- A map that is not empty is written as one file, which is taken as well. -/
theorem exists_single {q : Request} (htaken : ∀ p ∈ q.files, Taken B p) (hne : q.files ≠ []) :
    ∃ f, Taken B f ∧ f = (joinName (sorted q.files), lastValue (sorted q.files)) ∧
      render q.files = entry f := by
  obtain ⟨p, ps, hsorted⟩ : ∃ p ps, sorted q.files = p :: ps := by
    refine List.exists_cons_of_ne_nil fun hnil => hne ?_
    have hperm := sorted_perm q.files
    rw [hnil] at hperm
    exact hperm.symm.eq_nil
  have hall : ∀ x ∈ p :: ps, Taken B x :=
    fun x hx => htaken x ((sorted_perm q.files).subset (hsorted ▸ hx))
  obtain ⟨last, hlast, hvalue⟩ := lastValue_mem p ps
  refine ⟨_, ?_, rfl, render_eq_entry hne⟩
  rw [hsorted]
  exact ⟨validName_joinName p ps hall, hvalue ▸ (hall last hlast).2⟩

/-- A request that shares its key with no other is alone in its bytes. -/
theorem sole_of_own (hsha : Function.Injective C.sha256) (hr : r.Accepted B)
    (hown : ∀ r' : Request, r'.Accepted B → r'.key C plain B = r.key C plain B →
      r.Same r') : Sole plain B r := by
  have htaken := accepts_iff.mp hr.files
  rcases hfiles : r.files with _ | ⟨⟨n, h⟩, _ | ⟨q, files⟩⟩
  · exact .inl hfiles
  · rw [hfiles] at htaken
    obtain ⟨hname, hblob⟩ := htaken (n, h) List.mem_cons_self
    have hrender : render r.files = entry (n, h) := by
      rw [hfiles, render_singleton]
    refine .inr ⟨n, h, hfiles, ?_, ?_⟩
    · -- the request with both files
      rintro ⟨p, rest, rfl, hp, hrest, hne, hpblob, hle⟩
      obtain ⟨hpchars, hrestchars⟩ :=
        (validName_entry hpblob rest).mp hname
      obtain ⟨r', hr', hkey, -, hfiles'⟩ := exists_other hsha hr [p, (rest, h)]
        hr.input hr.secretsGen (by simpa using hne)
        (List.forall_mem_cons.mpr ⟨⟨(validName_iff p.1).mpr ⟨hp, hpchars⟩, hpblob⟩,
          List.forall_mem_singleton.mpr ⟨(validName_iff rest).mpr ⟨hrest, hrestchars⟩, hblob⟩⟩)
        (by rw [render_pair hle, hrender])
      have hlength := (hown r' hr' hkey).files.length_eq
      rw [hfiles, hfiles'] at hlength
      cases hlength
    · -- the request of the other source
      rintro ⟨source, input, gen, n', hsource, hinput, hgen, hn', hcut⟩
      obtain ⟨r', hr', hkey, hsource', -⟩ := exists_other hsha hr [(n', h)] hinput
        hgen (List.nodup_singleton _) (List.forall_mem_singleton.mpr ⟨hn', hblob⟩)
        (by
          rw [hrender, render_singleton, entry, entry, cut_append, cut_append, cut_append,
            cut_append, hcut])
      exact hsource (hsource'.symm.trans (hown r' hr' hkey).source)
  · -- the request with one file for all
    obtain ⟨f, hf, -, hrender⟩ := exists_single htaken (by rw [hfiles]; exact List.cons_ne_nil _ _)
    obtain ⟨r', hr', hkey, -, hfiles'⟩ := exists_other hsha hr [f] hr.input
      hr.secretsGen (List.nodup_singleton _) (List.forall_mem_singleton.mpr hf)
      (by rw [render_singleton, hrender])
    have hlength := (hown r' hr' hkey).files.length_eq
    rw [hfiles, hfiles'] at hlength
    cases hlength

/-- A map that is written as one file whose name does not split is that file. -/
theorem files_of_single {files : List (String × String)} {n h : String} (hne : files ≠ [])
    (hnodup : (files.map Prod.fst).Nodup) (htaken : ∀ p ∈ files, Taken B p)
    (hsingle : (joinName (sorted files), lastValue (sorted files)) = (n, h))
    (hsplits : ¬ Splits B n h) : files.Perm [(n, h)] := by
  have hname := congrArg Prod.fst hsingle
  have hhandle := congrArg Prod.snd hsingle
  rcases Nat.lt_or_ge files.length 2 with hsmall | hlarge
  · rcases hfiles : files with _ | ⟨q, _ | ⟨q', rest⟩⟩
    · exact (hne hfiles).elim
    · rw [hfiles] at hsingle
      have hsorted : sorted [q] = [q] := List.perm_singleton.mp (sorted_perm [q])
      rw [hsorted] at hsingle
      rw [← hsingle]
      exact List.Perm.refl _
    · rw [hfiles] at hsmall
      simp only [List.length_cons] at hsmall
      omega
  · obtain ⟨p, rest, hp, hrest, hdiffer, hle, hjoin⟩ := exists_pair hnodup hlarge
      fun p hp => ((validName_iff p.1).mp (htaken p hp).1).1
    refine (hsplits ⟨p, rest, hname.symm.trans hjoin, ?_, hrest, hdiffer, (htaken p hp).2,
      ?_⟩).elim
    · exact ((validName_iff p.1).mp (htaken p hp).1).1
    · rwa [← show lastValue (sorted files) = h from hhandle]

/-- A request that is alone in its bytes shares its key with no other. -/
theorem own_of_sole (hsha : Function.Injective C.sha256)
    (hplain : ∀ c, plain c = true → 32 ≤ c.toNat) (hr : r.Accepted B)
    (hsole : Sole plain B r) {r' : Request} (hr' : r'.Accepted B)
    (hkey : r'.key C plain B = r.key C plain B) : r.Same r' := by
  obtain ⟨hruntime, hdigest, hcut⟩ := (key_eq_iff hsha hr hr').mp hkey
  have htaken := accepts_iff.mp hr.files
  have htaken' := accepts_iff.mp hr'.files
  rcases hsole with hnone | ⟨n, h, hfiles, hsplits, hrecut⟩
  · have hnone' : r'.files = [] := by
      by_contra hne
      obtain ⟨f, hf, -, hrender⟩ := exists_single htaken' hne
      rw [hnone, hrender, render_nil] at hcut
      exact cut_entry_ne_empty hf.2 hcut.symm
    rw [hnone, hnone', render_nil] at hcut
    have hsource := source_of_cut_empty hplain hr.input hr'.input hcut
    obtain ⟨hinput, hgen, -⟩ := fields_of_source hsha hplain hr hr' hkey hsource
    exact
      { runtime := hruntime
        imageDigest := hdigest
        source := hsource
        input := hinput
        secretsGen := hgen
        files := by rw [hnone, hnone'] }
  · rw [hfiles] at htaken
    obtain ⟨-, hblob⟩ := htaken (n, h) List.mem_cons_self
    have hone : render r.files = entry (n, h) := by
      rw [hfiles, render_singleton]
    have hne' : r'.files ≠ [] := by
      intro hnone'
      rw [hnone', hone, render_nil] at hcut
      exact cut_entry_ne_empty hblob hcut
    obtain ⟨f, ⟨hname, hblob'⟩, hf, hrender⟩ := exists_single htaken' hne'
    rw [hone, hrender] at hcut
    obtain ⟨hnames, hhandle⟩ := cut_entry_inj hblob hblob' hcut
    have hsource : r'.source = r.source := by
      by_contra hdiffers
      exact hrecut ⟨r'.source, r'.input, r'.secretsGen, f.1, hdiffers, hr'.input, hr'.secretsGen,
        hname, hnames⟩
    obtain ⟨hinput, hgen, hrenders⟩ := fields_of_source hsha hplain hr hr' hkey hsource
    have hfile : f = (n, h) := by
      rw [hone, hrender, show f = (f.1, h) from Prod.ext rfl hhandle] at hrenders
      exact Prod.ext (entry_left_cancel hrenders) hhandle
    exact
      { runtime := hruntime
        imageDigest := hdigest
        source := hsource
        input := hinput
        secretsGen := hgen
        files := by
          rw [hfiles]
          exact files_of_single hne' hr'.names htaken' (hf.symm.trans hfile) hsplits }

end Own

/-! ## Two files and one -/

/-- Two blobs are stored. -/
def twoBlobs : Blobs where
  blobExists h := h == hex (demoSha (utf8 "echo 42")) || h == hex (demoSha (utf8 "\x7b\x7d"))
  handle := by
    intro h hh
    rcases Bool.or_eq_true_iff.mp hh with hh | hh
    · exact ⟨_, length_demoSha _, eq_of_beq hh⟩
    · exact ⟨_, length_demoSha _, eq_of_beq hh⟩

/-- The hash of one message; other messages are written twice and marked, which
no hash is. -/
def markedSha (bs : Bytes) : Bytes :=
  if bs = scopedMessage then scopedSha scopedMessage else bs ++ bs ++ [0]

theorem markedSha_injective : Function.Injective markedSha := by
  have hlength : (scopedSha scopedMessage).length = 32 := by
    rw [scopedSha, if_pos rfl]
    rfl
  exact marked_injective scopedMessage (by rw [hlength])

def markedCrypto : Crypto := { demo with sha256 := markedSha }

/-- `echo 42` with some files. -/
def filesRequest (files : List (String × String)) : Request where
  runtime := "bash"
  imageDigest := "alpine:3.20@sha256:0a4eaa0e"
  source := "echo 42"
  input := .obj []
  secretsGen := 1
  files

theorem filesRequest_accepted {files : List (String × String)}
    (hnodup : (files.map Prod.fst).Nodup) (htaken : ∀ p ∈ files, Taken twoBlobs p) :
    (filesRequest files).Accepted twoBlobs where
  runtime := show (runtimeSpec "bash").isSome = true by decide
  imageDigest := show (31 : UInt8) ∉ utf8 "alpine:3.20@sha256:0a4eaa0e" by decide +kernel
  input := trivial
  secretsGen := show -2 ^ 63 ≤ (1 : Int) ∧ (1 : Int) < 2 ^ 63 by decide
  names := hnodup
  files := accepts_iff.mpr htaken

theorem demoPlain {c : Char} (hc : demoWorld.plain c = true) : 32 ≤ c.toNat := by
  rw [demoWorld, Bool.and_eq_true, decide_eq_true_eq] at hc
  exact hc.1

/-- The blobs of the two handles. -/
def handle42 : String := hex (demoSha (utf8 "echo 42"))

def handleObj : String := hex (demoSha (utf8 "\x7b\x7d"))

end Dokan.Ports.KeyCollisions
