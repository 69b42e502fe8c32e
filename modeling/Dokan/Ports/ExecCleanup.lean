import Dokan.Ports.CacheKey
import Dokan.Ports.ExecJob
import Dokan.Ports.FlowDriver
import Dokan.Ports.RunScript

/-!
# What a run leaves on its host

`run_inner` makes a directory for the files of a run, gets a container, has
`exec_job` run the job, discards the container and removes the directory.  Every
step up to the container can end it, and an error on the way out passes by the
last two; `create_one` loses a container it has created and cannot start.

What the host, the database and Docker answer is a parameter, with the texts of
their errors.  `remove_dir_all` and the removal of a container succeed.  A run may
find the directory of an earlier attempt.

## Main results

* `materializeInput_spec`, `prepareOutputDir_spec`, `acquire_spec` — what each step
  leaves, when it succeeds, and with what.
* `run_released_iff` — when a run leaves nothing behind.
-/

namespace Dokan.Ports.ExecCleanup

open Dokan.Verified.Json
open Dokan.Ports.CacheKey (debugString)
open Dokan.Ports.ExecJob (Cid)
open Dokan.Ports.FlowDriver (runtimeSpec)
open Dokan.Ports.Receipt (Bytes)
open Dokan.Ports.RunScript (validName)

/-! ## The host -/

/-- What a run has on its host. -/
structure Host where
  /-- there is a directory `runs/<id>` -/
  root : Bool
  /-- the containers created for the run or handed to it -/
  held : List Cid
  /-- those given to `discard` -/
  discarded : List Cid

/-- Before a run; an earlier attempt may have left its directory. -/
def Host.before (left : Bool) : Host := ⟨left, [], []⟩

/-- No directory of the run, and no container that was not given to `discard`. -/
def Released (h : Host) : Prop := h.root = false ∧ ∀ cid ∈ h.held, cid ∈ h.discarded

instance (h : Host) : Decidable (Released h) :=
  inferInstanceAs (Decidable (h.root = false ∧ ∀ cid ∈ h.held, cid ∈ h.discarded))

/-- What becomes of `create_dir_all`. -/
inductive Made
  | done
  /-- nothing was created -/
  | failed (e : String)
  /-- some of the directories were created -/
  | partly (e : String)

/-- What becomes of `create_container`. -/
inductive Created
  | ok (cid : Cid)
  | refused (e : String)
  /-- there is a container, and no answer -/
  | lost (cid : Cid) (e : String)

/-- What the steps of a run meet. -/
structure World where
  /-- the characters `Debug` prints as they are -/
  plain : Char → Bool
  /-- `HOME` -/
  home : Option String
  /-- `create_dir_all` of the input and of the output directory -/
  inputDir : Made
  outputDir : Made
  /-- `set_permissions` of the output directory -/
  chmod : Except String Unit
  /-- `Db::get_blob` for the file of a name, of its handle -/
  getBlob : String → String → Except String (Option Bytes)
  /-- `fs::write` of a file -/
  write : String → Except String Unit
  /-- a warm container of the image -/
  idle : Option Cid
  /-- the image is there or is pulled -/
  ensureImage : Except String Unit
  createContainer : Created
  startContainer : Except String Unit
  /-- `exec_job` -/
  execJob : Except String Unit

/-- The arguments of `Executor::run` that these steps read. -/
structure Request where
  runId : Int
  runtime : String
  network : Bool
  memLimitMb : Option Int
  /-- `cpu_limit` is given -/
  cpuLimit : Bool
  inputBlobs : Option Value
  captureOutput : Bool

/-! ## The steps -/

/-- `$HOME/.dokan/runs/<id>`. -/
def runRoot (home : String) (runId : Int) : String :=
  home ++ "/.dokan/runs/" ++ toString runId

/-- The input files of a run, if it has any. -/
def Request.files (r : Request) : Option (List (String × Value)) :=
  match r.inputBlobs with
  | some (.obj map) => if map.isEmpty then none else some map
  | _ => none

/-- The loop of `materialize_input`. -/
def materializeFiles (W : World) : List (String × Value) → Except String Unit
  | [] => .ok ()
  | (name, shaV) :: left =>
      if !validName name then .error ("invalid input file name: " ++ debugString W.plain name)
      else
        match shaV.asStr? with
        | none => .error ("input_blobs[" ++ name ++ "] is not a string handle")
        | some sha =>
            match W.getBlob name sha with
            | .error e => .error e
            | .ok none => .error ("input blob not found for handle " ++ sha)
            | .ok (some _) =>
                match W.write name with
                | .error e => .error e
                | .ok () => materializeFiles W left

/-- `materialize_input`. -/
def materializeInput (W : World) (r : Request) (h : Host) :
    Except String (Option String) × Host :=
  match r.files with
  | none => (.ok none, h)
  | some map =>
      match W.home with
      | none => (.error "HOME unset; cannot materialize /input", h)
      | some home =>
          match W.inputDir with
          | .failed e => (.error e, h)
          | .partly e => (.error e, { h with root := true })
          | .done =>
              let h := { h with root := true }
              match materializeFiles W map with
              | .error e => (.error e, h)
              | .ok () => (.ok (some (runRoot home r.runId ++ "/input")), h)

/-- `prepare_output_dir`, if the run captures its output. -/
def prepareOutputDir (W : World) (r : Request) (h : Host) :
    Except String (Option String) × Host :=
  if !r.captureOutput then (.ok none, h)
  else
    match W.home with
    | none => (.error "HOME unset; cannot prepare /output", h)
    | some home =>
        match W.outputDir with
        | .failed e => (.error e, h)
        | .partly e => (.error e, { h with root := true })
        | .done =>
            let h := { h with root := true }
            match W.chmod with
            | .error e => (.error e, h)
            | .ok () => (.ok (some (runRoot home r.runId ++ "/output")), h)

def Host.hold (h : Host) (cid : Cid) : Host := { h with held := cid :: h.held }

/-- `WarmPool::create_one`. -/
def createOne (W : World) (h : Host) : Except String Cid × Host :=
  match W.ensureImage with
  | .error e => (.error e, h)
  | .ok () =>
      match W.createContainer with
      | .refused e => (.error e, h)
      | .lost cid e => (.error e, h.hold cid)
      | .ok cid =>
          match W.startContainer with
          | .error e => (.error e, h.hold cid)
          | .ok () => (.ok cid, h.hold cid)

/-- `WarmPool::acquire`. -/
def acquireWarm (W : World) (h : Host) : Except String Cid × Host :=
  match W.idle with
  | some cid => (.ok cid, h.hold cid)
  | none => createOne W h

/-- The container of a run: a warm one only if nothing about the run is its own. -/
def acquire (W : World) (r : Request) (hasArtifacts : Bool) (h : Host) :
    Except String Cid × Host :=
  if r.memLimitMb.isNone && !r.cpuLimit && !hasArtifacts && r.network then acquireWarm W h
  else createOne W h

/-- `WarmPool::discard`. -/
def Host.discard (h : Host) (cid : Cid) : Host := { h with discarded := cid :: h.discarded }

/-- The end of `run_inner`: the directory is removed if the run has one. -/
def release (h : Host) (cid : Cid) (dir : Option String) : Host :=
  let h := h.discard cid
  if dir.isSome then { h with root := false } else h

/-- `Executor::run_inner`. -/
def runInner (W : World) (r : Request) (h : Host) : Except String Unit × Host :=
  match runtimeSpec r.runtime with
  | none => (.error ("unknown runtime: " ++ r.runtime), h)
  | some _ =>
      match materializeInput W r h with
      | (.error e, h) => (.error e, h)
      | (.ok inputDir, h) =>
          match prepareOutputDir W r h with
          | (.error e, h) => (.error e, h)
          | (.ok outputDir, h) =>
              match acquire W r (inputDir.isSome || outputDir.isSome) h with
              | (.error e, h) => (.error e, h)
              | (.ok cid, h) => (W.execJob, release h cid (inputDir.or outputDir))

/-- `Executor::run`: the error it records, and what is left on the host. -/
def run (W : World) (r : Request) (h : Host) : Option String × Host :=
  match runInner W r h with
  | (.error e, h) => (some e, h)
  | (.ok (), h) => (none, h)

/-! ## When a step succeeds, and what it makes -/

/-- The directories are there, or some of them. -/
def Made.makes : Made → Bool
  | .done | .partly _ => true
  | .failed _ => false

/-- The container there is then, whether or not there was an answer. -/
def Created.container : Created → Option Cid
  | .ok cid | .lost cid _ => some cid
  | .refused _ => none

/-- A file that is written. -/
def FileReady (W : World) (p : String × Value) : Prop :=
  validName p.1 = true ∧
    ∃ sha, p.2.asStr? = some sha ∧ (∃ bytes, W.getBlob p.1 sha = .ok (some bytes)) ∧
      W.write p.1 = .ok ()

/-- The input files of the run are all written, if it has any. -/
def InputOk (W : World) (r : Request) : Prop :=
  ∀ map, r.files = some map →
    W.home.isSome = true ∧ W.inputDir = .done ∧ ∀ p ∈ map, FileReady W p

/-- The output directory of the run is ready, if it is to have one. -/
def OutputOk (W : World) (r : Request) : Prop :=
  r.captureOutput = true → W.home.isSome = true ∧ W.outputDir = .done ∧ W.chmod = .ok ()

/-- The run has a directory of its own. -/
def Request.hasArtifacts (r : Request) : Bool := r.files.isSome || r.captureOutput

/-- The run may have a warm container. -/
def Request.usesWarm (r : Request) : Bool :=
  r.memLimitMb.isNone && !r.cpuLimit && !r.hasArtifacts && r.network

/-- The step for the input makes a directory. -/
def makesInput (W : World) (r : Request) : Bool :=
  r.files.isSome && W.home.isSome && W.inputDir.makes

/-- The step for the output makes a directory. -/
def makesOutput (W : World) (r : Request) : Bool :=
  r.captureOutput && W.home.isSome && W.outputDir.makes

/-- The container that `create_one` makes. -/
def madeContainer (W : World) : Option Cid :=
  match W.ensureImage with
  | .ok () => W.createContainer.container
  | .error _ => none

/-- The container that is made or taken from the pool. -/
def containerOf (W : World) (r : Request) : Option Cid :=
  if r.usesWarm then W.idle.or (madeContainer W) else madeContainer W

/-- A container is created and started. -/
def CreateOk (W : World) : Prop :=
  W.ensureImage = .ok () ∧ (∃ cid, W.createContainer = .ok cid) ∧ W.startContainer = .ok ()

/-- The run gets its container. -/
def ContainerOk (W : World) (r : Request) : Prop :=
  r.usesWarm = true ∧ W.idle.isSome = true ∨ CreateOk W

/-- A step leaves `h`, succeeds exactly if `ok`, and then with a value in `P`. -/
@[mk_iff leaves_iff]
structure Leaves {α : Type} (step : Except String α × Host) (h : Host) (ok : Prop)
    (P : α → Prop) : Prop where
  host : step.2 = h
  ok_iff : (∃ a, step.1 = .ok a) ↔ ok
  value : ∀ a, step.1 = .ok a → P a

namespace Leaves

variable {α : Type} {step : Except String α × Host} {h : Host} {ok : Prop} {P : α → Prop}

theorem eq_ok (hstep : Leaves step h ok P) (hok : ok) : ∃ a, step = (.ok a, h) ∧ P a := by
  obtain ⟨a, ha⟩ := hstep.ok_iff.mpr hok
  exact ⟨a, Prod.ext ha hstep.host, hstep.value a ha⟩

theorem eq_error (hstep : Leaves step h ok P) (hbad : ¬ok) : ∃ e, step = (.error e, h) := by
  cases hres : step.1 with
  | error e => exact ⟨e, Prod.ext hres hstep.host⟩
  | ok a => exact absurd (hstep.ok_iff.mp ⟨a, hres⟩) hbad

end Leaves

section Steps

variable (W : World) (r : Request) (h : Host)

/-- The loop comes to its end exactly if every file is written. -/
theorem materializeFiles_eq_ok (map : List (String × Value)) :
    materializeFiles W map = .ok () ↔ ∀ p ∈ map, FileReady W p := by
  induction map with
  | nil => simp [materializeFiles]
  | cons p map ih =>
      obtain ⟨name, shaV⟩ := p
      rw [List.forall_mem_cons, ← ih, materializeFiles, FileReady]
      cases hname : validName name with
      | false => simp
      | true =>
          cases hsha : shaV.asStr? with
          | none => simp
          | some sha =>
              cases hblob : W.getBlob name sha with
              | error e => simp [hblob]
              | ok found =>
                  cases found with
                  | none => simp [hblob]
                  | some bytes =>
                      cases hwrite : W.write name with
                      | error e => simp [hblob]
                      | ok u => simp [hblob]

/-- **The input of a run.** -/
theorem materializeInput_spec :
    Leaves (materializeInput W r h) { h with root := h.root || makesInput W r } (InputOk W r)
      (fun dir => dir.isSome = r.files.isSome) := by
  rw [leaves_iff]
  unfold materializeInput makesInput InputOk
  cases hfiles : r.files with
  | none => simp
  | some map =>
      cases hhome : W.home with
      | none => simp
      | some home =>
          cases hdir : W.inputDir with
          | failed e => simp [Made.makes]
          | partly e => simp [Made.makes]
          | done =>
              have hok := materializeFiles_eq_ok W map
              cases hmat : materializeFiles W map with
              | error e => simpa [Made.makes, hmat] using hok
              | ok u => simpa [Made.makes, hmat] using hok

/-- **The output directory of a run.** -/
theorem prepareOutputDir_spec :
    Leaves (prepareOutputDir W r h) { h with root := h.root || makesOutput W r } (OutputOk W r)
      (fun dir => dir.isSome = r.captureOutput) := by
  rw [leaves_iff]
  unfold prepareOutputDir makesOutput OutputOk
  cases hcapture : r.captureOutput with
  | false => simp
  | true =>
      cases hhome : W.home with
      | none => simp
      | some home =>
          cases hdir : W.outputDir with
          | failed e => simp [Made.makes]
          | partly e => simp [Made.makes]
          | done => cases hchmod : W.chmod <;> simp [Made.makes]

/-- A container of the run's own. -/
theorem createOne_spec :
    Leaves (createOne W h) { h with held := (madeContainer W).toList ++ h.held } (CreateOk W)
      (fun cid => madeContainer W = some cid) := by
  rw [leaves_iff]
  unfold CreateOk createOne madeContainer
  cases himage : W.ensureImage with
  | error e => simp
  | ok u =>
      cases hcreate : W.createContainer with
      | refused e => simp [Created.container]
      | lost cid e => simp [Created.container, Host.hold]
      | ok cid => cases hstart : W.startContainer <;> simp [Created.container, Host.hold]

/-- **The container of a run.** -/
theorem acquire_spec :
    Leaves (acquire W r r.hasArtifacts h) { h with held := (containerOf W r).toList ++ h.held }
      (ContainerOk W r) (fun cid => containerOf W r = some cid) := by
  have hcreate := createOne_spec W h
  unfold acquire containerOf ContainerOk
  cases hwarm : r.usesWarm with
  | false =>
      rw [Request.usesWarm] at hwarm
      simpa [hwarm] using hcreate
  | true =>
      rw [Request.usesWarm] at hwarm
      cases hidle : W.idle with
      | some cid => simp [leaves_iff, hwarm, acquireWarm, hidle, Host.hold]
      | none => simpa [hwarm, acquireWarm, hidle] using hcreate

end Steps

/-! ## When nothing is left -/

/-- Every step up to the job succeeds. -/
def ReachesJob (W : World) (r : Request) : Prop :=
  (runtimeSpec r.runtime).isSome = true ∧ InputOk W r ∧ OutputOk W r ∧ ContainerOk W r

/-- The step that ends the run comes before anything is made. -/
def MakesNothing (W : World) (r : Request) : Prop :=
  runtimeSpec r.runtime = none ∨
    makesInput W r = false ∧
      (¬InputOk W r ∨ makesOutput W r = false ∧ (¬OutputOk W r ∨ containerOf W r = none))

/-- What is held is released, what is not made need not be, and a directory of an
earlier attempt is removed by a run with one of its own. -/
def ReleasedWhen (W : World) (r : Request) (left : Bool) : Prop :=
  ReachesJob W r ∧ (r.hasArtifacts = true ∨ left = false) ∨ MakesNothing W r ∧ left = false

section Exits

variable {W : World} {r : Request} {spec : String × String}

/-- What has become of the host when the input is there, or cannot be. -/
def inputHost (W : World) (r : Request) (h : Host) : Host :=
  { h with root := h.root || makesInput W r }

/-- The same for the output directory, -/
def outputHost (W : World) (r : Request) (h : Host) : Host :=
  { inputHost W r h with root := (inputHost W r h).root || makesOutput W r }

/-- and for the container. -/
def containerHost (W : World) (r : Request) (h : Host) : Host :=
  { outputHost W r h with held := (containerOf W r).toList ++ h.held }

theorem runInner_of_input_bad (hspec : runtimeSpec r.runtime = some spec) (hinput : ¬InputOk W r)
    (h : Host) : (runInner W r h).2 = inputHost W r h := by
  obtain ⟨e, he⟩ := (materializeInput_spec W r h).eq_error hinput
  simp [runInner, hspec, he, inputHost]

theorem runInner_of_output_bad (hspec : runtimeSpec r.runtime = some spec) (hinput : InputOk W r)
    (houtput : ¬OutputOk W r) (h : Host) : (runInner W r h).2 = outputHost W r h := by
  obtain ⟨inputDir, hin, -⟩ := (materializeInput_spec W r h).eq_ok hinput
  obtain ⟨e, he⟩ := (prepareOutputDir_spec W r (inputHost W r h)).eq_error houtput
  rw [inputHost] at he
  simp [runInner, hspec, hin, he, outputHost, inputHost]

/-- With both directories ready the container is next. -/
theorem runInner_of_dirs (hspec : runtimeSpec r.runtime = some spec) (hinput : InputOk W r)
    (houtput : OutputOk W r) (h : Host) :
    ∃ dir : Option String, dir.isSome = r.hasArtifacts ∧
      runInner W r h =
        match acquire W r r.hasArtifacts (outputHost W r h) with
        | (.error e, h) => (.error e, h)
        | (.ok cid, h) => (W.execJob, release h cid dir) := by
  obtain ⟨inputDir, hin, hinDir⟩ := (materializeInput_spec W r h).eq_ok hinput
  obtain ⟨outputDir, hout, houtDir⟩ :=
    (prepareOutputDir_spec W r (inputHost W r h)).eq_ok houtput
  rw [inputHost] at hout
  refine ⟨inputDir.or outputDir, ?_, ?_⟩
  · rw [Option.isSome_or, hinDir, houtDir, Request.hasArtifacts]
  · simp only [runInner, hspec, hin, hout, hinDir, houtDir]
    rfl

variable {left : Bool}

theorem released_inputHost :
    Released (inputHost W r (Host.before left)) ↔ left = false ∧ makesInput W r = false := by
  simp [Released, inputHost, Host.before]

theorem released_outputHost :
    Released (outputHost W r (Host.before left)) ↔
      left = false ∧ makesInput W r = false ∧ makesOutput W r = false := by
  simp [Released, outputHost, inputHost, Host.before, and_assoc]

theorem released_containerHost :
    Released (containerHost W r (Host.before left)) ↔
      left = false ∧ makesInput W r = false ∧ makesOutput W r = false ∧
        containerOf W r = none := by
  simp [Released, containerHost, outputHost, inputHost, Host.before, and_assoc,
    Option.eq_none_iff_forall_ne_some]

/-- After the job the container has been discarded, and a directory of the run's own is
gone; without one there is what an earlier attempt left. -/
theorem released_release {cid : Cid} {dir : Option String} (hcid : containerOf W r = some cid)
    (hdir : dir.isSome = r.hasArtifacts) :
    Released (release (containerHost W r (Host.before left)) cid dir) ↔
      r.hasArtifacts = true ∨ left = false := by
  cases hart : r.hasArtifacts with
  | true =>
      simp [Released, release, Host.discard, hdir, hart, containerHost, outputHost, inputHost,
        Host.before, hcid]
  | false =>
      obtain ⟨hfiles, hcapture⟩ : r.files.isSome = false ∧ r.captureOutput = false := by
        simpa [Request.hasArtifacts] using hart
      simp [Released, release, Host.discard, hdir, hart, containerHost, outputHost, inputHost,
        Host.before, hcid, makesInput, makesOutput, hfiles, hcapture]

end Exits

/-- **No leaked resources.**  A run leaves nothing exactly if it reaches its job, and
the directory is its own, or it makes nothing and finds nothing. -/
theorem run_released_iff (W : World) (r : Request) (left : Bool) :
    Released (run W r (Host.before left)).2 ↔ ReleasedWhen W r left := by
  have hrun : (run W r (Host.before left)).2 = (runInner W r (Host.before left)).2 := by
    unfold run
    rcases runInner W r (Host.before left) with ⟨e | u, h⟩ <;> rfl
  rw [hrun, ReleasedWhen, ReachesJob, MakesNothing]
  cases hspec : runtimeSpec r.runtime with
  | none => simp [runInner, hspec, Released, Host.before]
  | some spec =>
      -- one case for each step that can end the run, in their order
      by_cases hinput : InputOk W r
      · by_cases houtput : OutputOk W r
        · obtain ⟨dir, hdir, hinner⟩ := runInner_of_dirs hspec hinput houtput (Host.before left)
          rw [hinner]
          have hget : Leaves (acquire W r r.hasArtifacts (outputHost W r (Host.before left)))
              (containerHost W r (Host.before left)) (ContainerOk W r)
              (fun cid => containerOf W r = some cid) := acquire_spec W r _
          by_cases hcontainer : ContainerOk W r
          · obtain ⟨cid, hacq, hcid⟩ := hget.eq_ok hcontainer
            simp only [hacq, released_release hcid hdir]
            simp [hinput, houtput, hcontainer, hcid]
          · obtain ⟨e, he⟩ := hget.eq_error hcontainer
            simp only [he, released_containerHost]
            simp [hinput, houtput, hcontainer, and_comm, and_left_comm]
        · rw [runInner_of_output_bad hspec hinput houtput, released_outputHost]
          simp [hinput, houtput, and_comm]
      · rw [runInner_of_input_bad hspec hinput, released_inputHost]
        simp [hinput, and_comm]

/-- A host on which every step succeeds, but no blob is known. -/
def noBlobs : World where
  plain _ := true
  home := some "/home/dokan"
  inputDir := .done
  outputDir := .done
  chmod := .ok ()
  getBlob _ _ := .ok none
  write _ := .ok ()
  idle := none
  ensureImage := .ok ()
  createContainer := .ok 1
  startContainer := .ok ()
  execJob := .ok ()

/-- A run with the given input files and nothing else. -/
def runWith (inputBlobs : Option Value) : Request :=
  ⟨1, "python", true, none, false, inputBlobs, false⟩

/-- A handle without a blob ends the run in its new directory, and a container that
cannot be started is given to no one. -/
theorem run_not_released :
    ¬Released (run noBlobs (runWith (some (.obj [("a.csv", .str "00")]))) (Host.before false)).2 ∧
      ¬Released (run { noBlobs with startContainer := .error "no such device" } (runWith none)
        (Host.before false)).2 := by
  decide

end Dokan.Ports.ExecCleanup
