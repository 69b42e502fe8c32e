import Dokan.Ports.PumpLogs
import Dokan.Ports.ReceiptVerify

/-!
# The self-updater

`dokan update`: the gate on versions, the choice of the asset, the signature of
`SHA256SUMS`, the digest, and the one write of the running executable.

What the process meets is a `World`: the release, the downloads, the answers of
the file system and of the installed binary.  Versions are those of a linear
order, as `semver` compares them.  What is printed is left out, and so is what
happens after an install that succeeded.

## Main results

* `shaForAsset_eq_some` — which entry of `SHA256SUMS` is read.
* `update_integrity` — what is written over the executable has passed the gate
  on versions, the signature and the digest.
-/

namespace Dokan.Ports.Update

open Dokan.Verified.Lines
open Dokan.Verified.Utf8
open Dokan.Ports.PumpLogs
open Dokan.Ports.Receipt

/-- An `anyhow` error: the contexts, the outermost first. -/
abbrev Error := List String

def context {α : Type} (text : String) : Except Error α → Except Error α :=
  Except.mapError (text :: ·)

/-- `Option::context`. -/
def orError {α : Type} (text : String) : Option α → Except Error α
  | some a => .ok a
  | none => .error [text]

/-! ## Releases and versions -/

structure Asset where
  name : String
  browserDownloadUrl : String

structure Release where
  tagName : String
  assets : List Asset

/-- `release.assets.iter().find(|a| a.name == name)`. -/
def Release.asset (release : Release) (name : String) : Option Asset :=
  release.assets.find? fun a => a.name = name

/-- The crate `semver`. -/
structure Semver (V : Type) where
  parse : String → Except String V
  display : V → String

/-- `update::Gate`. -/
inductive Gate
  | upToDate
  | ahead
  | devBuild
  | update
deriving DecidableEq

/-- `update::gate`. -/
def gate {V : Type} [LinearOrder V] (current latest : V) (force debugBuild : Bool) : Gate :=
  match compare current latest, force with
  | .eq, _ => .upToDate
  | .gt, false => .ahead
  | _, _ => if debugBuild && !force then .devBuild else .update

/-- `update::parse_tag`. -/
def parseTag {V : Type} (S : Semver V) (tag : String) : Except Error V :=
  let stripped := (stripPrefix ['v'] tag.toList).getD tag.toList
  context ("release tag is not semver: " ++ tag)
    ((S.parse (String.ofList stripped)).mapError ([·]))

/-- `update::asset_name_for`. -/
def assetNameFor (os arch : String) : Option String :=
  let target : Option String :=
    match os, arch with
    | "macos", "aarch64" => some "aarch64-apple-darwin"
    | "macos", "x86_64" => some "x86_64-apple-darwin"
    | "linux", "x86_64" => some "x86_64-unknown-linux-gnu"
    | "linux", "aarch64" => some "aarch64-unknown-linux-gnu"
    | _, _ => none
  target.map ("dokan-" ++ ·)

/-! ## `SHA256SUMS` -/

/-- `str::lines`: a line ends at `\n` or `\r\n`. -/
def lines (t : Text) : List Text :=
  (cut '\n' t).1.map (fun l => if l.getLast? = some '\r' then l.dropLast else l) ++
    if (cut '\n' t).2 = [] then [] else [(cut '\n' t).2]

/-- `str::split_whitespace`. -/
def splitWhitespace (t : Text) : List Text := (t.splitOnP isWhitespace).filter (· ≠ [])

/-- `str::to_lowercase`; text that is not ASCII goes by the tables of Unicode. -/
def toLowercase (tables : Text → Text) (t : Text) : Text :=
  if t.all fun c => c.toNat < 128 then t.map Char.toLower else tables t

/-- The digest and the file name on a line: its first word, and the last of
those that follow. -/
def sumsEntry (line : Text) : Option (Text × Text) :=
  match splitWhitespace (trim line) with
  | [] => none
  | digest :: rest => rest.getLast?.map fun name => (digest, name.dropWhile (· = '*'))

/-- `update::sha_for_asset`. -/
def shaForAsset (tables : Text → Text) (sums asset : Text) : Option Text :=
  (lines sums).findSome? fun line =>
    (sumsEntry line).bind fun e => if e.2 = asset then some (toLowercase tables e.1) else none

/-- `String::from_utf8`. -/
def fromUtf8 (bs : Bytes) : Option Text := (String.fromUTF8? ⟨⟨bs⟩⟩).map String.toList

theorem fromUtf8_utf8 (s : String) : fromUtf8 (utf8 s) = some s.toList := by
  have hvalid : s.toUTF8.IsValidUTF8 := s.isValidUTF8
  have hbytes : (⟨⟨utf8 s⟩⟩ : ByteArray) = s.toUTF8 := rfl
  rw [fromUtf8, hbytes, String.fromUTF8?, dif_pos hvalid]
  rfl

/-! ## The world -/

/-- A file name, which need not be Unicode. -/
inductive OsString
  | str (s : String)
  | other (raw : Bytes)
deriving DecidableEq

/-- A path: its parent and its file name, either of which may be missing. -/
structure Path where
  parent : Option String
  fileName : Option OsString
deriving DecidableEq

/-- `Path::display`. -/
def Path.display (p : Path) : String :=
  (p.parent.map (· ++ "/")).getD "" ++
    match p.fileName with
    | some (.str s) => s
    | some (.other raw) => String.ofList (lossy raw)
    | none => ""

/-- The downloads of an install. -/
inductive Call
  | binary
  | sums
  | signature

/-- What the file system answers, and the installed binary. -/
structure Syscalls where
  create : Except String Unit
  /-- `write_all`; on an error, so many bytes were written -/
  write : Except (Nat × String) Unit
  flush : Except String Unit
  syncAll : Except String Unit
  setPermissions : Except String Unit
  rename : Except String Unit
  removeFile : Except String Unit
  /-- what `--version` prints on stdout -/
  spawn : Except String Bytes

/-- What the process meets. -/
structure World (V : Type) extends Semver V where
  crypto : Crypto
  /-- the tables of Unicode -/
  lower : Text → Text
  /-- `CARGO_PKG_VERSION` -/
  version : String
  debugBuild : Bool
  os : String
  arch : String
  /-- `DOKAN_RELEASE_PUBKEY` -/
  pubkeyVar : Option String
  client : Except String Unit
  fetchLatest : Except String Release
  download : Call → String → Except String Bytes
  currentExe : Except String Path
  pid : Nat
  sys : Syscalls

/-- The files, and what was renamed over the running executable. -/
structure Disk where
  files : Path → Option Bytes
  installed : List Bytes

/-! ## Checking a release -/

/-- `RELEASE_SIGNING_PUBKEY`. -/
def releaseSigningPubkey : String := ""

def trimmed (s : String) : String := String.ofList (trim s.toList)

section Checks

variable {V : Type} (w : World V)

/-- `update::release_pubkey`. -/
def releasePubkey : Option String :=
  let baked := if releaseSigningPubkey = "" then none else some releaseSigningPubkey
  match w.pubkeyVar with
  | some k => if trimmed k = "" then baked else some (trimmed k)
  | none => baked

/-- `update::ed25519_verify_detached`. -/
def ed25519VerifyDetached (C : Crypto) (pubkeyB64 : String) (msg : Bytes) (sigB64 : String) :
    Bool :=
  match C.decodeBase64 (trimmed pubkeyB64), C.decodeBase64 (trimmed sigB64) with
  | some pk, some sig =>
      pk.length = 32 && C.validKey pk && sig.length = 64 && C.verifyStrict pk msg sig
  | _, _ => false

/-- The provenance check of `install`. -/
def checkSignature (release : Release) (sumsRaw : Bytes) : Except Error Unit :=
  match releasePubkey w with
  | none => .ok ()
  | some pubkey => do
      let sigAsset ← orError
        "a release-signing key is pinned but the release has no SHA256SUMS.sig"
        (release.asset "SHA256SUMS.sig")
      let sigRaw ← context "downloading SHA256SUMS.sig"
        ((w.download .signature sigAsset.browserDownloadUrl).mapError ([·]))
      let sigB64 ← orError "SHA256SUMS.sig is not valid UTF-8" (fromUtf8 sigRaw)
      if ed25519VerifyDetached w.crypto pubkey sumsRaw (String.ofList sigB64) then return ()
      else throw ["SHA256SUMS signature does not verify against the pinned release key — " ++
        "refusing to update"]

/-- The steps of `install` before it touches the disk: the bytes to write. -/
def checked (release : Release) : Except Error Bytes := do
  let assetName ← orError
    "no prebuilt release asset for this platform (build from source instead)"
    (assetNameFor w.os w.arch)
  let asset ← orError ("release " ++ release.tagName ++ " has no asset `" ++ assetName ++ "`")
    (release.asset assetName)
  let sumsAsset ← orError "release is missing its SHA256SUMS asset" (release.asset "SHA256SUMS")
  let bin ← context "downloading the release binary"
    ((w.download .binary asset.browserDownloadUrl).mapError ([·]))
  let sumsRaw ← context "downloading SHA256SUMS"
    ((w.download .sums sumsAsset.browserDownloadUrl).mapError ([·]))
  checkSignature w release sumsRaw
  let sums ← orError "SHA256SUMS is not valid UTF-8" (fromUtf8 sumsRaw)
  let expected ← orError ("SHA256SUMS has no entry for `" ++ assetName ++ "`")
    (shaForAsset w.lower sums assetName.toList)
  let actual := (sha256Hex w.crypto bin).toList
  if actual ≠ expected then throw ["checksum mismatch for `" ++ assetName ++ "`: expected " ++
    String.ofList expected ++ ", got " ++ String.ofList actual]
  else return bin

end Checks

/-! ## Installing -/

/-- The file at a path has the bytes. -/
def Disk.put (d : Disk) (p : Path) (bytes : Bytes) : Disk :=
  { d with files := Function.update d.files p (some bytes) }

/-- `let _ = std::fs::remove_file(p)`. -/
def Disk.remove (d : Disk) (sys : Syscalls) (p : Path) : Disk :=
  match sys.removeFile with
  | .ok _ => { d with files := Function.update d.files p none }
  | .error _ => d

/-- `rename(tmp, exe)`. -/
def Disk.renameOver (d : Disk) (tmp exe : Path) : Disk where
  files := Function.update (Function.update d.files tmp none) exe (d.files tmp)
  installed := d.installed ++ (d.files tmp).toList

/-- The temp file in the directory of the executable. -/
def tmpPath (dir : String) (exe : Path) (pid : Nat) : Path :=
  let fileName := match exe.fileName with
    | some (.str s) => s
    | _ => "dokan"
  { parent := some dir
    fileName := some (.str ("." ++ fileName ++ ".update-" ++ toString pid)) }

/-- The block of `install_atomic` that creates and writes the temp file. -/
def writeTemp (sys : Syscalls) (tmp : Path) (bytes : Bytes) (d : Disk) : Except Error Unit × Disk :=
  match sys.create with
  | .error e => (.error ["creating temp file " ++ tmp.display, e], d)
  | .ok _ =>
      match sys.write with
      | .error (n, e) => (.error [e], d.put tmp (bytes.take n))
      | .ok _ =>
          match sys.flush, sys.syncAll with
          | .ok _, .ok _ => (.ok (), d.put tmp bytes)
          | .error e, _ | .ok _, .error e => (.error [e], d.put tmp bytes)

/-- `update::install_atomic`. -/
def installAtomic (sys : Syscalls) (exe : Path) (pid : Nat) (bytes : Bytes) (d : Disk) :
    Except Error Unit × Disk :=
  match exe.parent with
  | none => (.error ["current_exe has no parent directory"], d)
  | some dir =>
      let tmp := tmpPath dir exe pid
      match writeTemp sys tmp bytes d with
      | (.error e, d) => (.error e, d)
      | (.ok _, d) =>
          match sys.setPermissions with
          | .error e => (.error ["chmod 0o755 " ++ tmp.display, e], d.remove sys tmp)
          | .ok _ =>
              match sys.rename with
              | .error e =>
                  (.error ["rename " ++ tmp.display ++ " -> " ++ exe.display, e], d.remove sys tmp)
              | .ok _ => (.ok (), d.renameOver tmp exe)

/-- `str::contains`. -/
def contains (t pat : Text) : Bool := t.tails.any fun rest => pat.isPrefixOf rest

/-- `update::verify`. -/
def verify {V : Type} (w : World V) (latest : V) : Except Error Unit := do
  let out ← context "spawning installed binary --version" (w.sys.spawn.mapError ([·]))
  let stdout := lossy out
  let want := w.display latest
  if contains stdout want.toList then return ()
  else throw ["installed binary reports `" ++ String.ofList (trim stdout) ++
    "`, expected version " ++ want]

section Run

variable {V : Type} (w : World V)

/-- `update::install`. -/
def install (release : Release) (latest : V) (d : Disk) : Except Error Unit × Disk :=
  match checked w release with
  | .error e => (.error e, d)
  | .ok bin =>
      match w.currentExe with
      | .error e => (.error ["resolving current_exe()", e], d)
      | .ok exe =>
          match installAtomic w.sys exe w.pid bin d with
          | (.error e, d) => (.error ("atomic install" :: e), d)
          | (.ok _, d) => (context "post-install verification" (verify w latest), d)

/-- `update::run`: the exit code, and the disk. -/
def run [LinearOrder V] (force check : Bool) (d : Disk) : Nat × Disk :=
  match w.parse w.version, w.client, w.fetchLatest with
  | .ok current, .ok _, .ok release =>
      match parseTag w.toSemver release.tagName with
      | .error _ => (1, d)
      | .ok latest =>
          if check then (0, d)
          else
            match gate current latest force w.debugBuild with
            | .update =>
                let done := install w release latest d
                (match done.1 with
                  | .ok _ => 0
                  | .error _ => 1, done.2)
            | .upToDate | .ahead | .devBuild => (0, d)
  | _, _, _ => (1, d)

end Run

/-! ## What the checks establish -/

theorem orError_eq_ok {α : Type} {text : String} {x : Option α} {a : α} :
    orError text x = .ok a ↔ x = some a := by
  cases x with
  | none => exact iff_of_false (fun h => by cases h) (fun h => by cases h)
  | some b => exact ⟨fun h => congrArg some (Except.ok.inj h), fun h => by cases h; rfl⟩

/-- What a download returned. -/
theorem context_eq_ok {α : Type} {text : String} {x : Except String α} {a : α} :
    context text (x.mapError ([·])) = .ok a ↔ x = .ok a := by
  cases x with
  | error e => exact iff_of_false (fun h => by cases h) (fun h => by cases h)
  | ok b => exact ⟨fun h => by cases h; rfl, fun h => by cases h; rfl⟩

/-- Without `--force`, only a release build goes up. -/
theorem lt_of_gate {V : Type} [LinearOrder V] {current latest : V} {debugBuild : Bool}
    (h : gate current latest false debugBuild = .update) :
    current < latest ∧ debugBuild = false := by
  unfold gate at h
  cases hcmp : compare current latest with
  | eq => simp [hcmp] at h
  | gt => simp [hcmp] at h
  | lt =>
      refine ⟨compare_lt_iff_lt.mp hcmp, ?_⟩
      cases debugBuild with
      | false => rfl
      | true => simp [hcmp] at h

/-- The first line that names the asset has the digest. -/
def FirstEntry (sums asset digest : Text) : Prop :=
  ∃ before line after, lines sums = before ++ line :: after ∧
    sumsEntry line = some (digest, asset) ∧ ∀ l ∈ before, ∀ d, sumsEntry l ≠ some (d, asset)

/-- **The entry.**  The digest is that of the first line that names the asset. -/
theorem shaForAsset_eq_some {tables : Text → Text} {sums asset expected : Text} :
    shaForAsset tables sums asset = some expected ↔
      ∃ digest, FirstEntry sums asset digest ∧ toLowercase tables digest = expected := by
  have hnone : ∀ line, (((sumsEntry line).bind fun e =>
      if e.2 = asset then some (toLowercase tables e.1) else none) = none ↔
        ∀ d, sumsEntry line ≠ some (d, asset)) := by
    intro line
    rcases hentry : sumsEntry line with _ | ⟨d, name⟩
    · simp
    · by_cases hname : name = asset
      · subst hname
        simp
      · simp [hname]
  rw [shaForAsset, List.findSome?_eq_some_iff]
  constructor
  · rintro ⟨before, line, after, hlines, hfound, hbefore⟩
    obtain ⟨⟨digest, name⟩, hentry, hif⟩ := Option.bind_eq_some_iff.mp hfound
    split_ifs at hif with hname
    cases hname
    refine ⟨digest, ⟨before, line, after, hlines, hentry, ?_⟩, Option.some.inj hif⟩
    intro l hl
    exact (hnone l).mp (hbefore l hl)
  · rintro ⟨digest, ⟨before, line, after, hlines, hentry, hbefore⟩, hdigest⟩
    refine ⟨before, line, after, hlines, ?_, fun l hl => (hnone l).mpr (hbefore l hl)⟩
    rw [hentry, Option.bind_some, if_pos rfl, hdigest]

section Checked

variable {V : Type} {w : World V} {release : Release}

/-- The key signs the bytes of `SHA256SUMS`, with the signature of the release. -/
def Signed (w : World V) (release : Release) (key : String) (sumsRaw : Bytes) : Prop :=
  ∃ sigAsset sigRaw sigB64 pk sig,
    release.asset "SHA256SUMS.sig" = some sigAsset ∧
    w.download .signature sigAsset.browserDownloadUrl = .ok sigRaw ∧
    fromUtf8 sigRaw = some sigB64 ∧
    w.crypto.decodeBase64 (trimmed key) = some pk ∧ pk.length = 32 ∧
    w.crypto.validKey pk = true ∧
    w.crypto.decodeBase64 (trimmed (String.ofList sigB64)) = some sig ∧ sig.length = 64 ∧
    w.crypto.verifyStrict pk sumsRaw sig = true

theorem ed25519VerifyDetached_iff {C : Crypto} {key sigB64 : String} {msg : Bytes} :
    ed25519VerifyDetached C key msg sigB64 = true ↔
      ∃ pk sig, C.decodeBase64 (trimmed key) = some pk ∧ pk.length = 32 ∧ C.validKey pk = true ∧
        C.decodeBase64 (trimmed sigB64) = some sig ∧ sig.length = 64 ∧
        C.verifyStrict pk msg sig = true := by
  unfold ed25519VerifyDetached
  cases hpk : C.decodeBase64 (trimmed key) with
  | none => simp
  | some pk =>
      cases hsig : C.decodeBase64 (trimmed sigB64) with
      | none => simp
      | some sig => simp [and_assoc]

/-- **Provenance.**  With a pinned key, the check passes exactly if the key signs
the bytes. -/
theorem checkSignature_eq_ok {sumsRaw : Bytes} :
    checkSignature w release sumsRaw = .ok () ↔
      ∀ key, releasePubkey w = some key → Signed w release key sumsRaw := by
  unfold checkSignature
  cases hkey : releasePubkey w with
  | none => simp
  | some key =>
      constructor
      · intro h key' hkey'
        cases hkey'
        obtain ⟨sigAsset, hasset, h⟩ := bind_eq_ok h
        obtain ⟨sigRaw, hraw, h⟩ := bind_eq_ok h
        obtain ⟨sigB64, hutf8, h⟩ := bind_eq_ok h
        split_ifs at h with hverify
        obtain ⟨pk, sig, hpair⟩ := ed25519VerifyDetached_iff.mp hverify
        exact ⟨sigAsset, sigRaw, sigB64, pk, sig, orError_eq_ok.mp hasset,
          context_eq_ok.mp hraw, orError_eq_ok.mp hutf8, hpair⟩
      · intro h
        obtain ⟨sigAsset, sigRaw, sigB64, pk, sig, hasset, hraw, hutf8, hpair⟩ := h key rfl
        have hverify := ed25519VerifyDetached_iff.mpr ⟨pk, sig, hpair⟩
        simp only [hasset, hraw, hutf8, hverify, orError, context, Except.mapError, bind,
          Except.bind, if_true]
        rfl

/-- What `install` has made sure of about the bytes it writes. -/
structure Checked (w : World V) (release : Release) (b : Bytes) (assetName : String)
    (sumsRaw : Bytes) (sums digest : Text) : Prop where
  platform : assetNameFor w.os w.arch = some assetName
  binary : ∃ a, release.asset assetName = some a ∧
    w.download .binary a.browserDownloadUrl = .ok b
  sumsFile : ∃ a, release.asset "SHA256SUMS" = some a ∧
    w.download .sums a.browserDownloadUrl = .ok sumsRaw
  decoded : fromUtf8 sumsRaw = some sums
  entry : FirstEntry sums assetName.toList digest
  sha256 : toLowercase w.lower digest = (sha256Hex w.crypto b).toList
  signed : ∀ key, releasePubkey w = some key → Signed w release key sumsRaw

/-- **The checks** pass exactly with what they are there for. -/
theorem checked_eq_ok {b : Bytes} :
    checked w release = .ok b ↔
      ∃ assetName sumsRaw sums digest, Checked w release b assetName sumsRaw sums digest := by
  constructor
  · intro h
    obtain ⟨assetName, hplatform, h⟩ := bind_eq_ok h
    obtain ⟨asset, hasset, h⟩ := bind_eq_ok h
    obtain ⟨sumsAsset, hsumsAsset, h⟩ := bind_eq_ok h
    obtain ⟨bin, hbin, h⟩ := bind_eq_ok h
    obtain ⟨sumsRaw, hsumsRaw, h⟩ := bind_eq_ok h
    obtain ⟨⟨⟩, hsigned, h⟩ := bind_eq_ok h
    obtain ⟨sums, hsums, h⟩ := bind_eq_ok h
    obtain ⟨expected, hexpected, h⟩ := bind_eq_ok h
    dsimp only at h
    split_ifs at h with hmatch
    cases h
    obtain ⟨digest, hentry, hdigest⟩ := shaForAsset_eq_some.mp (orError_eq_ok.mp hexpected)
    exact ⟨assetName, sumsRaw, sums, digest, orError_eq_ok.mp hplatform,
      ⟨asset, orError_eq_ok.mp hasset, context_eq_ok.mp hbin⟩,
      ⟨sumsAsset, orError_eq_ok.mp hsumsAsset, context_eq_ok.mp hsumsRaw⟩,
      orError_eq_ok.mp hsums, hentry, hdigest.trans (not_not.mp hmatch).symm,
      checkSignature_eq_ok.mp hsigned⟩
  · rintro ⟨assetName, sumsRaw, sums, digest, hplatform, ⟨asset, hasset, hbin⟩,
      ⟨sumsAsset, hsumsAsset, hsumsRaw⟩, hsums, hentry, hdigest, hsigned⟩
    have hsha := shaForAsset_eq_some.mpr ⟨digest, hentry, hdigest⟩
    have hsignature := checkSignature_eq_ok.mpr hsigned
    simp only [checked, hplatform, hasset, hbin, hsumsAsset, hsumsRaw, hsignature, hsums, hsha,
      orError, context, Except.mapError, bind, Except.bind, ne_eq, not_true, if_false]
    rfl

end Checked

/-! ## The write -/

section Write

variable {sys : Syscalls} {exe tmp : Path} {pid : Nat} {bytes : Bytes} {d d' : Disk}

/-- The temp file is another file than the executable. -/
theorem tmpPath_ne (dir : String) (exe : Path) (pid : Nat) : tmpPath dir exe pid ≠ exe := by
  intro h
  rcases exe with ⟨parent, _ | (s | raw)⟩
  · cases congrArg Path.fileName h
  · have hname := OsString.str.inj (Option.some.inj (congrArg Path.fileName h))
    have hlen := congrArg String.length hname
    simp only [String.length_append] at hlen
    have hdot : ".".length = 1 := rfl
    omega
  · cases congrArg Path.fileName h

theorem put_self (d : Disk) (p : Path) (bytes : Bytes) :
    (d.put p bytes).files p = some bytes := Function.update_self _ _ _

theorem put_ne (d : Disk) {p q : Path} (bytes : Bytes) (h : q ≠ p) :
    (d.put p bytes).files q = d.files q := Function.update_of_ne h _ _

theorem remove_ne (d : Disk) (sys : Syscalls) {p q : Path} (h : q ≠ p) :
    (d.remove sys p).files q = d.files q := by
  unfold Disk.remove
  split
  · exact Function.update_of_ne h _ _
  · rfl

theorem remove_installed (d : Disk) (sys : Syscalls) (p : Path) :
    (d.remove sys p).installed = d.installed := by
  unfold Disk.remove
  split <;> rfl

/-- Writing the temp file changes no other file. -/
theorem writeTemp_frame (sys : Syscalls) (tmp : Path) (bytes : Bytes) (d : Disk) :
    (writeTemp sys tmp bytes d).2.installed = d.installed ∧
      ∀ p, p ≠ tmp → (writeTemp sys tmp bytes d).2.files p = d.files p := by
  unfold writeTemp
  split
  · exact ⟨rfl, fun p _ => rfl⟩
  · split
    · exact ⟨rfl, fun p hp => put_ne d _ hp⟩
    · split
      · exact ⟨rfl, fun p hp => put_ne d _ hp⟩
      · exact ⟨rfl, fun p hp => put_ne d _ hp⟩
      · exact ⟨rfl, fun p hp => put_ne d _ hp⟩

/-- A temp file that is written has the bytes. -/
theorem writeTemp_ok (h : writeTemp sys tmp bytes d = (.ok (), d')) : d' = d.put tmp bytes := by
  unfold writeTemp at h
  split at h
  · cases h
  · split at h
    · cases h
    · split at h
      · exact (Prod.mk.inj h).2.symm
      · cases h
      · cases h

/-- What `install_atomic` does to the executable. -/
inductive Atomic (exe : Path) (bytes : Bytes) (d d' : Disk) : Except Error Unit → Prop
  | kept (e : Error) (installed : d'.installed = d.installed)
      (files : d'.files exe = d.files exe) : Atomic exe bytes d d' (.error e)
  | replaced (installed : d'.installed = d.installed ++ [bytes])
      (files : d'.files exe = some bytes) : Atomic exe bytes d d' (.ok ())

/-- **Atomic install.**  On an error the executable is what it was. -/
theorem atomic_installAtomic (sys : Syscalls) (exe : Path) (pid : Nat) (bytes : Bytes) (d : Disk) :
    Atomic exe bytes d (installAtomic sys exe pid bytes d).2
      (installAtomic sys exe pid bytes d).1 := by
  unfold installAtomic
  split
  · exact .kept _ rfl rfl
  · rename_i dir _
    have hne := (tmpPath_ne dir exe pid).symm
    obtain ⟨hinstalled, hfiles⟩ := writeTemp_frame sys (tmpPath dir exe pid) bytes d
    dsimp only
    split
    · rename_i e d' hwrite
      rw [hwrite] at hinstalled hfiles
      exact .kept _ hinstalled (hfiles exe hne)
    · rename_i d' hwrite
      rw [hwrite] at hinstalled hfiles
      have htmp : d'.files (tmpPath dir exe pid) = some bytes := by
        rw [writeTemp_ok hwrite, put_self]
      have hremoved : (d'.remove sys (tmpPath dir exe pid)).files exe = d.files exe :=
        (remove_ne d' sys hne).trans (hfiles exe hne)
      have hkept : (d'.remove sys (tmpPath dir exe pid)).installed = d.installed :=
        (remove_installed d' sys _).trans hinstalled
      split
      · exact .kept _ hkept hremoved
      · split
        · exact .kept _ hkept hremoved
        · refine .replaced ?_ ?_
          · rw [Disk.renameOver, htmp, hinstalled]
            rfl
          · exact (Function.update_self _ _ _).trans htmp

end Write

section Integrity

variable {V : Type} {w : World V}

/-- `install` writes nothing over the executable, or what has been checked. -/
theorem install_writes (w : World V) (release : Release) (latest : V) (d : Disk) :
    (install w release latest d).2.installed = d.installed ∧
        (∀ exe, w.currentExe = .ok exe →
          (install w release latest d).2.files exe = d.files exe) ∨
      ∃ b, checked w release = .ok b ∧
        (install w release latest d).2.installed = d.installed ++ [b] ∧
        ∀ exe, w.currentExe = .ok exe → (install w release latest d).2.files exe = some b := by
  unfold install
  split
  · exact .inl ⟨rfl, fun _ _ => rfl⟩
  · rename_i bin hchecked
    split
    · exact .inl ⟨rfl, fun _ _ => rfl⟩
    · rename_i exe hexe
      have hatomic := atomic_installAtomic w.sys exe w.pid bin d
      split
      · rename_i e d' hinstall
        rw [hinstall] at hatomic
        cases hatomic with
        | kept _ hinstalled hfiles =>
            refine .inl ⟨hinstalled, fun exe' hexe' => ?_⟩
            obtain rfl := Except.ok.inj (hexe.symm.trans hexe')
            exact hfiles
      · rename_i d' hinstall
        rw [hinstall] at hatomic
        cases hatomic with
        | replaced hinstalled hfiles =>
            refine .inr ⟨bin, hchecked, hinstalled, fun exe' hexe' => ?_⟩
            obtain rfl := Except.ok.inj (hexe.symm.trans hexe')
            exact hfiles

/-- The four gates that the bytes have passed. -/
structure Integrity [LinearOrder V] (w : World V) (force : Bool) (b : Bytes) (release : Release)
    (current latest : V) : Prop where
  fetched : w.fetchLatest = .ok release
  running : w.parse w.version = .ok current
  tagged : parseTag w.toSemver release.tagName = .ok latest
  newer : force = false → current < latest ∧ w.debugBuild = false
  verified : ∃ assetName sumsRaw sums digest, Checked w release b assetName sumsRaw sums digest

/-- A run that gets past the gate installs. -/
theorem run_of_gate [LinearOrder V] {current latest : V} {release : Release} {force : Bool}
    {d : Disk} (hcurrent : w.parse w.version = .ok current) (hclient : w.client = .ok ())
    (hrelease : w.fetchLatest = .ok release)
    (hlatest : parseTag w.toSemver release.tagName = .ok latest)
    (hgate : gate current latest force w.debugBuild = .update) :
    (run w force false d).2 = (install w release latest d).2 := by
  unfold run
  simp only [hcurrent, hclient, hrelease, hlatest, hgate, Bool.false_eq_true, if_false]

/-- Before an update. -/
def Disk.before (files : Path → Option Bytes) : Disk := { files, installed := [] }

/-- **Update integrity.**  What is renamed over the running executable has
passed the four gates, and nothing else changes the executable. -/
theorem update_integrity [LinearOrder V] (w : World V) (force check : Bool)
    (files : Path → Option Bytes) :
    (∀ b ∈ (run w force check (.before files)).2.installed,
        ∃ release current latest, Integrity w force b release current latest) ∧
      ∀ exe, w.currentExe = .ok exe →
        (run w force check (.before files)).2.files exe = files exe ∨
          ∃ b ∈ (run w force check (.before files)).2.installed,
            (run w force check (.before files)).2.files exe = some b := by
  have hkept : (∀ b ∈ (Disk.before files).installed,
      ∃ release current latest, Integrity w force b release current latest) ∧
      ∀ exe, w.currentExe = .ok exe → (Disk.before files).files exe = files exe ∨
        ∃ b ∈ (Disk.before files).installed, (Disk.before files).files exe = some b := by
    refine ⟨fun b hb => ?_, fun _ _ => .inl rfl⟩
    cases hb
  unfold run
  split
  · rename_i current _ release hcurrent _ hrelease
    split
    · exact hkept
    · rename_i latest hlatest
      split_ifs
      · exact hkept
      · split
        · rename_i hgate
          have hnewer : force = false → current < latest ∧ w.debugBuild = false := by
            rintro rfl
            exact lt_of_gate hgate
          rcases install_writes w release latest (.before files) with
            ⟨hinstalled, hfiles⟩ | ⟨b, hchecked, hinstalled, hfiles⟩
          · refine ⟨fun b hb => ?_, fun exe hexe => .inl (hfiles exe hexe)⟩
            rw [hinstalled] at hb
            cases hb
          · refine ⟨fun b' hb' => ?_, fun exe hexe => .inr ⟨b, ?_, hfiles exe hexe⟩⟩
            · rw [hinstalled] at hb'
              obtain rfl := List.mem_singleton.mp hb'
              exact ⟨release, current, latest, hrelease, hcurrent, hlatest, hnewer,
                checked_eq_ok.mp hchecked⟩
            · rw [hinstalled]
              exact List.mem_singleton_self b
        · exact hkept
        · exact hkept
        · exact hkept
  · exact hkept

end Integrity

/-- The digest of an empty file, for one asset. -/
def demoSums : String :=
  "e3b0c44298fc1c149afbf4c8996fb92427ae41e4649b934ca495991b7852b855" ++
    "  dokan-x86_64-unknown-linux-gnu\n"

def demoRelease : Release where
  tagName := "v0.6.0"
  assets :=
    [ { name := "dokan-x86_64-unknown-linux-gnu", browserDownloadUrl := "binary" }
    , { name := "SHA256SUMS", browserDownloadUrl := "sums" } ]

/-- Version 0.5.0 on Linux, and a release of an empty file. -/
def demoWorld (sys : Syscalls) : World Nat where
  parse s :=
    if s = "0.5.0" then .ok 5 else if s = "0.6.0" then .ok 6 else .error "unexpected character"
  display v := if v = 5 then "0.5.0" else "0.6.0"
  crypto := demoHash
  lower := id
  version := "0.5.0"
  debugBuild := false
  os := "linux"
  arch := "x86_64"
  pubkeyVar := none
  client := .ok ()
  fetchLatest := .ok demoRelease
  download
    | .binary, _ => .ok []
    | .sums, _ => .ok (utf8 demoSums)
    | .signature, _ => .error "404 Not Found"
  currentExe := .ok { parent := some "/usr/local/bin", fileName := some (.str "dokan") }
  pid := 4242
  sys

/-- The release passes the checks. -/
theorem checked_demo (sys : Syscalls) : checked (demoWorld sys) demoRelease = .ok [] := by
  have hsha : shaForAsset id demoSums.toList "dokan-x86_64-unknown-linux-gnu".toList =
      some (sha256Hex demoHash []).toList := by decide +kernel
  obtain ⟨digest, hentry, hdigest⟩ := shaForAsset_eq_some.mp hsha
  refine checked_eq_ok.mpr ⟨"dokan-x86_64-unknown-linux-gnu", utf8 demoSums, demoSums.toList,
    digest, ?_⟩
  exact
    { platform := rfl
      binary := ⟨_, rfl, rfl⟩
      sumsFile := ⟨_, rfl, rfl⟩
      decoded := fromUtf8_utf8 demoSums
      entry := hentry
      sha256 := hdigest
      signed := fun key hkey => by cases hkey }

/-- Everything goes well. -/
def demoSys : Syscalls where
  create := .ok ()
  write := .ok ()
  flush := .ok ()
  syncAll := .ok ()
  setPermissions := .ok ()
  rename := .ok ()
  removeFile := .ok ()
  spawn := .ok (utf8 "dokan 0.6.0\n")

/-- `update_integrity` for version 0.5.0 and the release 0.6.0. -/
theorem update_integrity_newer :
    (run (demoWorld demoSys) false false (.before fun _ => none)).2.installed = [[]] ∧
      ∃ release current latest,
        Integrity (demoWorld demoSys) false [] release current latest := by
  have hinstalled :
      (run (demoWorld demoSys) false false (.before fun _ => none)).2.installed = [[]] := by
    have hgate : gate 5 6 false false = .update := by decide
    rw [run_of_gate (w := demoWorld demoSys) rfl rfl rfl rfl hgate, install, checked_demo]
    rfl
  refine ⟨hinstalled, (update_integrity (demoWorld demoSys) false false fun _ => none).1 [] ?_⟩
  rw [hinstalled]
  exact List.mem_singleton_self []

end Dokan.Ports.Update
