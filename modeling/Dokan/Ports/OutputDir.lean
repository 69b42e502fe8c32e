import Dokan.Verified.Machine

/-!
# The output directory of a run

With `capture_output`, every attempt of a run binds `~/.dokan/runs/<id>/output`
of its host at `/output`, and what is there afterwards becomes `output_blobs`.
The directory is named by the run: `prepare_output_dir` creates it when it is
not there, and only an attempt that comes to the end of `run_inner` removes it.

A daemon can die between any two steps; the container of its attempt stays and
its job goes on.  A container keeps the directory it was created with, also
when the path leads to another one later.  Capturing visits one entry at a time.

## Main results

* `inv_step` — what every attempt that is not over knows of its directory.
* `output_hermetic` — what an attempt records its own job wrote, as long as
  every attempt prepares a directory that is empty and that no other one uses.
-/

namespace Dokan.Ports.OutputDir

open Dokan.Verified

abbrev Host := Nat

/-- A directory, whatever path leads to it. -/
abbrev DirId := Nat

/-- A file under `/output`; the attempt whose job wrote it is history. -/
structure OutFile where
  name : String
  /-- `file_type().is_file()` -/
  regular : Bool
  size : Nat
  sha : String
  writer : Nat

/-- The map of `capture_output`. -/
abbrev Blobs := List OutFile

/-- Where an attempt is in `run_inner`. -/
inductive Phase
  | started
  | prepared
  /-- the job runs -/
  | running
  /-- the run is finished in the table, and `/output` is read -/
  | capturing (map : Blobs)
  | captured (outputBlobs : Option Blobs)
  /-- `exec_job` has returned -/
  | executed
  /-- the container is discarded -/
  | cleaning
  /-- returned, or its daemon is dead -/
  | over

/-- An attempt; `dir` is the directory it prepared, `mount` the one its
container has at `/output`. -/
structure Attempt where
  host : Host
  phase : Phase
  dir : Option DirId
  mount : Option DirId

structure State where
  /-- the directory `~/.dokan/runs/<id>/output` leads to -/
  path : Host → Option DirId
  files : DirId → List OutFile
  nextDir : DirId
  attempts : List Attempt
  /-- history: what was recorded, and by which attempt -/
  recorded : List (Nat × Blobs)

def State.init : State where
  path _ := none
  files _ := []
  nextDir := 0
  attempts := []
  recorded := []

/-! ## Steps -/

/-- `MAX_OUTPUT_FILE_BYTES`. -/
def maxOutputFileBytes : Nat := 256 * 1024 * 1024

/-- The file is in the directory, in place of one of its name. -/
def putFile (f : OutFile) (files : List OutFile) : List OutFile :=
  (files.filter fun g => g.name ≠ f.name) ++ [f]

/-- The body of the loop of `capture_output`. -/
def captureEntry (map : Blobs) (f : OutFile) : Blobs :=
  if !f.regular then map
  else if f.size > maxOutputFileBytes then map
  else putFile f map

/-- What `capture_output` returns. -/
def captureResult (map : Blobs) : Option Blobs := if map.isEmpty then none else some map

inductive Label
  /-- a worker claims the run, for the first time or after a reap -/
  | claim (host : Host)
  | prepare (k : Nat)
  /-- `run_inner` returns before there is a container -/
  | fail (k : Nat)
  /-- the container is created and the job starts -/
  | start (k : Nat)
  | write (k : Nat) (name : String) (regular : Bool) (size : Nat) (sha : String)
  | unlink (k : Nat) (name : String)
  | exit (k : Nat)
  /-- `exec_job` returns without reading `/output` -/
  | abort (k : Nat)
  /-- `capture_output` visits an entry -/
  | visit (k : Nat) (name : String)
  /-- `capture_output` returns, or fails -/
  | capture (k : Nat) (ok : Bool)
  /-- `set_run_output_blobs`, which may fail -/
  | record (k : Nat) (ok : Bool)
  /-- `discard`, best effort -/
  | discard (k : Nat) (removed : Bool)
  /-- `remove_dir_all`, best effort -/
  | clean (k : Nat) (removed : Bool)
  /-- the daemon dies -/
  | crash (k : Nat)

def State.setAttempt (s : State) (k : Nat) (a : Attempt) : State :=
  { s with attempts := s.attempts.set k a }

/-- `prepare_output_dir`: `create_dir_all` leaves a directory that is there. -/
def State.prepareOutputDir (s : State) (k : Nat) (a : Attempt) : State :=
  match s.path a.host with
  | some d => s.setAttempt k { a with phase := .prepared, dir := some d }
  | none =>
      State.setAttempt
        { s with
          path := Function.update s.path a.host (some s.nextDir)
          files := Function.update s.files s.nextDir []
          nextDir := s.nextDir + 1 } k
        { a with phase := .prepared, dir := some s.nextDir }

/-- A step of the attempt `k`. -/
def stepOf (s : State) (k : Nat) (a : Attempt) : Label → Option State
  | .prepare _ =>
      match a.phase with
      | .started => some (s.prepareOutputDir k a)
      | _ => none
  | .fail _ =>
      match a.phase with
      | .started | .prepared => some (s.setAttempt k { a with phase := .over })
      | _ => none
  | .start _ =>
      match a.phase, s.path a.host with
      | .prepared, some d => some (s.setAttempt k { a with phase := .running, mount := some d })
      | _, _ => none
  | .write _ name regular size sha =>
      a.mount.map fun d =>
        { s with
          files := Function.update s.files d
            (putFile { name, regular, size, sha, writer := k } (s.files d)) }
  | .unlink _ name =>
      a.mount.map fun d =>
        { s with
          files := Function.update s.files d ((s.files d).filter fun g => g.name ≠ name) }
  | .exit _ =>
      match a.phase with
      | .running => some (s.setAttempt k { a with phase := .capturing [] })
      | _ => none
  | .abort _ =>
      match a.phase with
      | .running => some (s.setAttempt k { a with phase := .executed })
      | _ => none
  | .visit _ name =>
      match a.phase, s.path a.host with
      | .capturing map, some d =>
          match (s.files d).find? fun g => g.name = name with
          | some f => some (s.setAttempt k { a with phase := .capturing (captureEntry map f) })
          | none => none
      | _, _ => none
  | .capture _ ok =>
      match a.phase with
      | .capturing map =>
          some (s.setAttempt k
            { a with phase := .captured (if ok then captureResult map else none) })
      | _ => none
  | .record _ ok =>
      match a.phase with
      | .captured outputBlobs =>
          let recorded := if ok then (outputBlobs.map fun map => (k, map)).toList else []
          some (State.setAttempt { s with recorded := s.recorded ++ recorded } k
            { a with phase := .executed })
      | _ => none
  | .discard _ removed =>
      match a.phase with
      | .executed =>
          some (s.setAttempt k
            { a with phase := .cleaning, mount := if removed then none else a.mount })
      | _ => none
  | .clean _ removed =>
      match a.phase with
      | .cleaning =>
          some (State.setAttempt
            { s with path := if removed then Function.update s.path a.host none else s.path } k
            { a with phase := .over })
      | _ => none
  | .crash _ => some (s.setAttempt k { a with phase := .over })
  | .claim _ => none

/-- The attempt of a label. -/
def Label.attempt : Label → Option Nat
  | .claim _ => none
  | .prepare k | .fail k | .start k | .write k _ _ _ _ | .unlink k _ | .exit k | .abort k
  | .visit k _ | .capture k _ | .record k _ | .discard k _ | .clean k _ | .crash k => some k

def step (s : State) (a : Label) : Option State :=
  match a with
  | .claim host =>
      some
        { s with
          attempts := s.attempts ++
            [{ host, phase := .started, dir := none, mount := none }] }
  | a => do
      let k ← a.attempt
      let attempt ← s.attempts[k]?
      stepOf s k attempt a

/-! ## Hermeticity -/

/-- What an attempt records its own job wrote. -/
def Hermetic (s : State) : Prop := ∀ p ∈ s.recorded, ∀ f ∈ p.2, f.writer = p.1

/-- The attempt has prepared its directory and is not over. -/
def Attempt.live (a : Attempt) : Bool :=
  match a.phase with
  | .started | .over => false
  | .prepared | .running | .capturing _ | .captured _ | .executed | .cleaning => true

/-- The attempt, or the container it has left, uses the directory. -/
def Attempt.uses (a : Attempt) (d : DirId) : Bool :=
  a.dir = some d && (a.live || a.mount.isSome)

/-- Some other attempt uses the directory. -/
def State.inUse (s : State) (k : Nat) (d : DirId) : Bool :=
  (List.range s.attempts.length).any fun k' =>
    k' ≠ k && (s.attempts[k']?).any fun a => a.uses d

/-- An attempt prepares a directory that is new, or one that is empty and that no
other attempt uses. -/
def State.clean (s : State) : Label → Bool
  | .prepare k =>
      (s.attempts[k]?).all fun a =>
        (s.path a.host).all fun d => (s.files d).isEmpty && !s.inUse k d
  | _ => true

/-! ## The invariant -/

/-- What the attempt has read so far. -/
def Attempt.map (a : Attempt) : Blobs :=
  match a.phase with
  | .capturing map | .captured (some map) => map
  | _ => []

/-- What holds of the attempt `k`. -/
structure Good (s : State) (k : Nat) (a : Attempt) : Prop where
  path : a.live = true → ∃ d, a.dir = some d ∧ s.path a.host = some d
  mount : ∀ d, a.mount = some d → a.dir = some d
  bound : ∀ d, a.dir = some d → d < s.nextDir
  writer : a.live = true → ∀ d, a.dir = some d → ∀ f ∈ s.files d, f.writer = k
  map : ∀ f ∈ a.map, f.writer = k
  started : a.phase = .started → a.mount = none

structure Inv (s : State) : Prop where
  good : ∀ k a, s.attempts[k]? = some a → Good s k a
  /-- a directory has one user -/
  one : ∀ (k k' : Nat) (a a' : Attempt) (d : DirId), s.attempts[k]? = some a →
    s.attempts[k']? = some a' → a.uses d = true → a'.uses d = true → k = k'
  bound : ∀ h d, s.path h = some d → d < s.nextDir
  hermetic : Hermetic s

section Attempts

variable {s : State} {k j : Nat} {a a' b : Attempt} {d : DirId}

theorem uses_iff : a.uses d = true ↔ a.dir = some d ∧ (a.live = true ∨ a.mount.isSome = true) := by
  simp [Attempt.uses]

/-- The attempts after one has gone on. -/
theorem setAttempt_cases (h : (s.setAttempt k a').attempts[j]? = some b) :
    j = k ∧ b = a' ∨ j ≠ k ∧ s.attempts[j]? = some b := by
  by_cases hj : j = k
  · subst hj
    rw [State.setAttempt, List.getElem?_set_self'] at h
    obtain ⟨_, _, rfl⟩ := Option.map_eq_some_iff.mp h
    exact .inl ⟨rfl, rfl⟩
  · refine .inr ⟨hj, ?_⟩
    rwa [State.setAttempt, List.getElem?_set_ne (Ne.symm hj)] at h

/-- An attempt goes on, and uses no directory it did not use. -/
theorem Inv.setAttempt (hI : Inv s) (hk : s.attempts[k]? = some a) (hgood : Good s k a')
    (huses : ∀ d, a'.uses d = true → a.uses d = true) : Inv (s.setAttempt k a') := by
  refine ⟨fun j b hb => ?_, fun j j' b b' d hb hb' hd hd' => ?_, hI.bound, hI.hermetic⟩
  · rcases setAttempt_cases hb with ⟨rfl, rfl⟩ | ⟨_, hb⟩
    · exact ⟨hgood.path, hgood.mount, hgood.bound, hgood.writer, hgood.map, hgood.started⟩
    · have hg := hI.good j b hb
      exact ⟨hg.path, hg.mount, hg.bound, hg.writer, hg.map, hg.started⟩
  · rcases setAttempt_cases hb with ⟨rfl, rfl⟩ | ⟨_, hold⟩
    · rcases setAttempt_cases hb' with ⟨rfl, _⟩ | ⟨_, hold'⟩
      · rfl
      · exact hI.one j j' a b' d hk hold' (huses d hd) hd'
    · rcases setAttempt_cases hb' with ⟨rfl, rfl⟩ | ⟨_, hold'⟩
      · exact hI.one j j' b a d hold hk hd (huses d hd')
      · exact hI.one j j' b b' d hold hold' hd hd'

/-- The attempt in another phase. -/
theorem Good.next (hg : Good s k a) {phase : Phase} {mount : Option DirId}
    (hlive : Attempt.live { a with phase, mount } = true → a.live = true)
    (hmount : ∀ d, mount = some d → a.dir = some d)
    (hmap : ∀ f ∈ Attempt.map { a with phase, mount }, f.writer = k)
    (hstarted : phase ≠ .started) : Good s k { a with phase, mount } where
  path h := hg.path (hlive h)
  mount := hmount
  bound := hg.bound
  writer h := hg.writer (hlive h)
  map := hmap
  started h := absurd h hstarted

/-- An attempt in another phase, with no container it did not have. -/
theorem Inv.next (hI : Inv s) (hk : s.attempts[k]? = some a) {phase : Phase}
    {mount : Option DirId}
    (hlive : Attempt.live { a with phase, mount } = true → a.live = true)
    (hmount : mount = a.mount ∨ mount = none)
    (hmap : ∀ f ∈ Attempt.map { a with phase, mount }, f.writer = k)
    (hstarted : phase ≠ .started) : Inv (s.setAttempt k { a with phase, mount }) := by
  have hg := hI.good k a hk
  refine hI.setAttempt hk (hg.next hlive (fun d hd => ?_) hmap hstarted) fun d hd => ?_
  · rcases hmount with rfl | rfl
    · exact hg.mount d hd
    · cases hd
  · obtain ⟨hdir, huse⟩ := uses_iff.mp hd
    refine uses_iff.mpr ⟨hdir, huse.imp hlive fun hsome => ?_⟩
    rcases hmount with rfl | rfl
    · exact hsome
    · cases hsome

/-- An attempt goes on, and has read nothing. -/
theorem Inv.goes (hI : Inv s) (hk : s.attempts[k]? = some a) {phase : Phase}
    (hlive : a.live = true) (hmap : Attempt.map { a with phase } = [])
    (hstarted : phase ≠ .started) : Inv (s.setAttempt k { a with phase }) :=
  hI.next hk (fun _ => hlive) (.inl rfl) (fun _ hf => absurd (hmap ▸ hf) List.not_mem_nil) hstarted

theorem Inv.over (hI : Inv s) (hk : s.attempts[k]? = some a) :
    Inv (s.setAttempt k { a with phase := .over }) :=
  hI.next hk (fun h => by cases h) (.inl rfl) (fun f hf => by cases hf) fun h => by cases h

/-- The files of a directory change, at the hand of the attempt that uses it. -/
theorem Inv.files (hI : Inv s) (hk : s.attempts[k]? = some a) (hmount : a.mount = some d)
    {files : List OutFile} (hfiles : ∀ f ∈ files, f ∈ s.files d ∨ f.writer = k) :
    Inv { s with files := Function.update s.files d files } := by
  refine ⟨fun j b hb => ?_, hI.one, hI.bound, hI.hermetic⟩
  have hg := hI.good j b hb
  refine ⟨hg.path, hg.mount, hg.bound, fun hlive d' hdir f hf => ?_, hg.map, hg.started⟩
  by_cases hd : d' = d
  · subst hd
    have huses : a.uses d' = true :=
      uses_iff.mpr ⟨(hI.good k a hk).mount d' hmount, .inr (by rw [hmount]; rfl)⟩
    have hjk := hI.one j k b a d' hb hk (uses_iff.mpr ⟨hdir, .inl hlive⟩) huses
    have hfile : f ∈ Function.update s.files d' files d' := hf
    rw [Function.update_self] at hfile
    rcases hfiles f hfile with hold | hnew
    · exact hg.writer hlive d' hdir f hold
    · rw [hnew, hjk]
  · have hfile : f ∈ Function.update s.files d files d' := hf
    rw [Function.update_of_ne hd] at hfile
    exact hg.writer hlive d' hdir f hfile

/-- Nobody else uses a directory that is clean. -/
theorem not_uses_of_clean (hk : s.attempts[k]? = some a) (hpath : s.path a.host = some d)
    (hclean : s.clean (.prepare k) = true) :
    s.files d = [] ∧ ∀ j b, j ≠ k → s.attempts[j]? = some b → b.uses d = false := by
  simp only [State.clean, hk, hpath, Option.all_some, Bool.and_eq_true, List.isEmpty_iff,
    Bool.not_eq_true'] at hclean
  refine ⟨hclean.1, fun j b hj hb => ?_⟩
  by_contra huses
  have hlt := (List.getElem?_eq_some_iff.mp hb).1
  have hin : s.inUse k d = true := by
    refine List.any_eq_true.mpr ⟨j, List.mem_range.mpr hlt, ?_⟩
    rw [hb, Option.any_some, Bool.and_eq_true]
    exact ⟨decide_eq_true hj, by simpa using huses⟩
  rw [hin] at hclean
  cases hclean.2

/-- A directory that nobody uses becomes that of the attempt. -/
theorem Inv.adopt (hI : Inv s) (hk : s.attempts[k]? = some a) (hphase : a.phase = .started)
    (hpath : s.path a.host = some d) (hfiles : s.files d = [])
    (hfree : ∀ j b, j ≠ k → s.attempts[j]? = some b → b.uses d = false) :
    Inv (s.setAttempt k { a with phase := .prepared, dir := some d }) := by
  have hmount := (hI.good k a hk).started hphase
  refine ⟨fun j b hb => ?_, fun j j' b b' d' hb hb' hd hd' => ?_, hI.bound, hI.hermetic⟩
  · rcases setAttempt_cases hb with ⟨rfl, rfl⟩ | ⟨_, hold⟩
    · refine ⟨fun _ => ⟨d, rfl, hpath⟩, fun d' hd' => ?_, fun d' hd' => ?_, fun _ d' hd' f hf => ?_,
        fun f hf => ?_, fun _ => hmount⟩
      · rw [hmount] at hd'
        cases hd'
      · cases hd'
        exact hI.bound a.host d hpath
      · cases hd'
        have hfile : f ∈ s.files d := hf
        rw [hfiles] at hfile
        cases hfile
      · cases hf
    · have hg := hI.good j b hold
      exact ⟨hg.path, hg.mount, hg.bound, hg.writer, hg.map, hg.started⟩
  · rcases setAttempt_cases hb with ⟨rfl, rfl⟩ | ⟨hj, hold⟩
    · rcases setAttempt_cases hb' with ⟨rfl, _⟩ | ⟨hj', hold'⟩
      · rfl
      · obtain rfl := Option.some.inj (uses_iff.mp hd).1
        rw [hfree j' b' hj' hold'] at hd'
        cases hd'
    · rcases setAttempt_cases hb' with ⟨rfl, rfl⟩ | ⟨_, hold'⟩
      · obtain rfl := Option.some.inj (uses_iff.mp hd').1
        rw [hfree j b hj hold] at hd
        cases hd
      · exact hI.one j j' b b' d' hold hold' hd hd'

/-- An attempt prepares its directory. -/
theorem Inv.prepare (hI : Inv s) (hk : s.attempts[k]? = some a) (hphase : a.phase = .started)
    (hclean : s.clean (.prepare k) = true) : Inv (s.prepareOutputDir k a) := by
  unfold State.prepareOutputDir
  split
  · rename_i d hpath
    obtain ⟨hfiles, hfree⟩ := not_uses_of_clean hk hpath hclean
    exact hI.adopt hk hphase hpath hfiles hfree
  · rename_i hpath
    -- the directory is new: nobody has it
    have hnew : Inv
        { s with
          path := Function.update s.path a.host (some s.nextDir)
          files := Function.update s.files s.nextDir []
          nextDir := s.nextDir + 1 } := by
      refine ⟨fun j b hb => ?_, hI.one, fun h d hd => ?_, hI.hermetic⟩
      · have hg := hI.good j b hb
        refine ⟨fun hlive => ?_, hg.mount, fun d hd => Nat.lt_succ_of_lt (hg.bound d hd),
          fun hlive d hd f hf => ?_, hg.map, hg.started⟩
        · obtain ⟨d, hdir, hd⟩ := hg.path hlive
          have hhost : b.host ≠ a.host := by
            intro heq
            rw [heq, hpath] at hd
            cases hd
          exact ⟨d, hdir, (Function.update_of_ne hhost _ _).trans hd⟩
        · have hne : d ≠ s.nextDir := Nat.ne_of_lt (hg.bound d hd)
          have hfile : f ∈ Function.update s.files s.nextDir [] d := hf
          rw [Function.update_of_ne hne] at hfile
          exact hg.writer hlive d hd f hfile
      · have hpath' : Function.update s.path a.host (some s.nextDir) h = some d := hd
        by_cases hh : h = a.host
        · rw [hh, Function.update_self] at hpath'
          cases hpath'
          exact Nat.lt_succ_self _
        · rw [Function.update_of_ne hh] at hpath'
          exact Nat.lt_succ_of_lt (hI.bound h d hpath')
    refine hnew.adopt hk hphase (Function.update_self _ _ _) (Function.update_self _ _ _) ?_
    intro j b _ hb
    by_contra huses
    have hdir := (uses_iff.mp (by simpa using huses)).1
    exact Nat.lt_irrefl _ ((hI.good j b hb).bound s.nextDir hdir)

/-- An attempt removes its directory. -/
theorem Inv.cleanup (hI : Inv s) (hk : s.attempts[k]? = some a) (hlive : a.live = true) :
    Inv (State.setAttempt { s with path := Function.update s.path a.host none } k
      { a with phase := .over }) := by
  obtain ⟨d, hdir, hpath⟩ := (hI.good k a hk).path hlive
  -- first the attempt is over, so that whoever is left on the host has no directory there
  have hover : Inv (s.setAttempt k { a with phase := .over }) := hI.over hk
  refine ⟨fun j b hb => ?_, hover.one, fun h d' hd' => ?_, hI.hermetic⟩
  · have hg := hover.good j b hb
    refine ⟨fun hb' => ?_, hg.mount, hg.bound, hg.writer, hg.map, hg.started⟩
    obtain ⟨d', hdir', hpath'⟩ := hg.path hb'
    have hhost : b.host ≠ a.host := by
      intro heq
      rcases setAttempt_cases hb with ⟨_, rfl⟩ | ⟨hj, hold⟩
      · cases hb'
      · have hd : d' = d := by
          have hsame : s.path b.host = some d' := hpath'
          rw [heq, hpath] at hsame
          exact (Option.some.inj hsame).symm
        subst hd
        exact hj (hI.one j k b a d' hold hk (uses_iff.mpr ⟨hdir', .inl hb'⟩)
          (uses_iff.mpr ⟨hdir, .inl hlive⟩))
    exact ⟨d', hdir', (Function.update_of_ne hhost _ _).trans hpath'⟩
  · have hpath' : Function.update s.path a.host none h = some d' := hd'
    by_cases hh : h = a.host
    · rw [hh, Function.update_self] at hpath'
      cases hpath'
    · rw [Function.update_of_ne hh] at hpath'
      exact hI.bound h d' hpath'

/-- A run is claimed. -/
theorem Inv.claim (hI : Inv s) (host : Host) :
    Inv { s with
      attempts := s.attempts ++ [{ host, phase := .started, dir := none, mount := none }] } := by
  -- the new attempt is the last one, and has nothing
  have hcases : ∀ {j : Nat} {b : Attempt},
      (s.attempts ++ [{ host, phase := .started, dir := none, mount := none }])[j]? = some b →
      s.attempts[j]? = some b ∨ b = { host, phase := .started, dir := none, mount := none } := by
    intro j b hb
    rw [List.getElem?_append] at hb
    split_ifs at hb with hj
    · exact .inl hb
    · exact .inr (List.mem_singleton.mp (List.mem_of_getElem? hb))
  refine ⟨fun j b hb => ?_, fun j j' b b' d hb hb' hd hd' => ?_, hI.bound, hI.hermetic⟩
  · rcases hcases hb with hold | rfl
    · have hg := hI.good j b hold
      exact ⟨hg.path, hg.mount, hg.bound, hg.writer, hg.map, hg.started⟩
    · exact
        { path := fun h => by cases h
          mount := fun d h => by cases h
          bound := fun d h => by cases h
          writer := fun h => by cases h
          map := fun f h => by cases h
          started := fun _ => rfl }
  · rcases hcases hb with hold | rfl
    · rcases hcases hb' with hold' | rfl
      · exact hI.one j j' b b' d hold hold' hd hd'
      · cases (uses_iff.mp hd').1
    · cases (uses_iff.mp hd).1

/-- The entry that is visited is a file of the directory. -/
theorem mem_captureEntry {map : Blobs} {f g : OutFile} (h : g ∈ captureEntry map f) :
    g ∈ map ∨ g = f := by
  unfold captureEntry at h
  split_ifs at h
  · exact .inl h
  · exact .inl h
  · rcases List.mem_append.mp h with h | h
    · exact .inl (List.mem_filter.mp h).1
    · exact .inr (List.mem_singleton.mp h)

/-- What is recorded the attempt has read. -/
theorem Inv.record (hI : Inv s) (hk : s.attempts[k]? = some a) {new : List (Nat × Blobs)}
    (hnew : ∀ p ∈ new, p.1 = k ∧ p.2 = a.map) : Inv { s with recorded := s.recorded ++ new } := by
  refine ⟨fun j b hb => ?_, hI.one, hI.bound, fun p hp f hf => ?_⟩
  · have hg := hI.good j b hb
    exact ⟨hg.path, hg.mount, hg.bound, hg.writer, hg.map, hg.started⟩
  · rcases List.mem_append.mp hp with hold | hp
    · exact hI.hermetic p hold f hf
    · obtain ⟨hattempt, hmap⟩ := hnew p hp
      rw [hmap] at hf
      rw [hattempt]
      exact (hI.good k a hk).map f hf

end Attempts

/-- **One step** of an attempt. -/
theorem inv_stepOf {s s' : State} {k : Nat} {a : Attempt} {l : Label} (hI : Inv s)
    (hk : s.attempts[k]? = some a) (hl : l.attempt = some k) (hclean : s.clean l = true)
    (h : stepOf s k a l = some s') : Inv s' := by
  have hg := hI.good k a hk
  cases l with
  | claim host => cases h
  | prepare k' =>
      cases hl
      simp only [stepOf] at h
      split at h
      · rename_i hphase
        cases h
        exact hI.prepare hk hphase hclean
      · cases h
  | fail k' =>
      simp only [stepOf] at h
      split at h
      · cases h
        exact hI.over hk
      · cases h
        exact hI.over hk
      · cases h
  | start k' =>
      simp only [stepOf] at h
      split at h
      · rename_i d hphase hpath
        cases h
        have halive : a.live = true := by rw [Attempt.live, hphase]
        obtain ⟨d', hdir, hpath'⟩ := hg.path halive
        obtain rfl := Option.some.inj (hpath.symm.trans hpath')
        refine hI.setAttempt hk (hg.next (fun _ => halive) (fun d' hd' => ?_)
          (by intro f hf; cases hf) (by intro h; cases h)) fun d' hd' => ?_
        · rw [← hd', hdir]
        · exact uses_iff.mpr ⟨(uses_iff.mp hd').1, .inl halive⟩
      · cases h
  | write k' name regular size sha =>
      obtain ⟨d, hmount, rfl⟩ := Option.map_eq_some_iff.mp h
      refine hI.files hk hmount fun f hf => ?_
      rcases List.mem_append.mp hf with hf | hf
      · exact .inl (List.mem_filter.mp hf).1
      · rw [List.mem_singleton.mp hf]
        exact .inr rfl
  | unlink k' name =>
      obtain ⟨d, hmount, rfl⟩ := Option.map_eq_some_iff.mp h
      exact hI.files hk hmount fun f hf => .inl (List.mem_filter.mp hf).1
  | exit k' =>
      simp only [stepOf] at h
      split at h
      · rename_i hphase
        cases h
        exact hI.goes hk (by rw [Attempt.live, hphase]) rfl (by intro h; cases h)
      · cases h
  | abort k' =>
      simp only [stepOf] at h
      split at h
      · rename_i hphase
        cases h
        exact hI.goes hk (by rw [Attempt.live, hphase]) rfl (by intro h; cases h)
      · cases h
  | visit k' name =>
      simp only [stepOf] at h
      split at h
      · rename_i map d hphase hpath
        split at h
        · rename_i f hfind
          cases h
          have halive : a.live = true := by rw [Attempt.live, hphase]
          have hmap : a.map = map := by rw [Attempt.map, hphase]
          obtain ⟨d', hdir, hpath'⟩ := hg.path halive
          obtain rfl := Option.some.inj (hpath.symm.trans hpath')
          refine hI.next hk (fun _ => halive) (.inl rfl) (fun g hgm => ?_) (by intro h; cases h)
          rcases mem_captureEntry hgm with hold | rfl
          · exact hg.map g (hmap ▸ hold)
          · exact hg.writer halive d hdir g (List.mem_of_find?_eq_some hfind)
        · cases h
      · cases h
  | capture k' ok =>
      simp only [stepOf] at h
      split at h
      · rename_i map hphase
        cases h
        have hmap : a.map = map := by rw [Attempt.map, hphase]
        refine hI.next hk (fun _ => by rw [Attempt.live, hphase]) (.inl rfl) (fun f hf => ?_)
          (by intro h; cases h)
        refine hg.map f ?_
        rw [hmap]
        cases ok with
        | false => cases hf
        | true =>
            cases map with
            | nil => exact hf
            | cons g map => exact hf
      · cases h
  | record k' ok =>
      simp only [stepOf] at h
      split at h
      · rename_i outputBlobs hphase
        cases h
        refine Inv.goes (hI.record hk fun p hp => ?_) hk (by rw [Attempt.live, hphase]) rfl
          (by intro h; cases h)
        cases ok with
        | false => cases hp
        | true =>
            rw [if_pos rfl, Option.mem_toList, Option.map_eq_some_iff] at hp
            obtain ⟨map, hmap, rfl⟩ := hp
            exact ⟨rfl, by rw [Attempt.map, hphase, hmap]⟩
      · cases h
  | discard k' removed =>
      simp only [stepOf] at h
      split at h
      · rename_i hphase
        cases h
        refine hI.next hk (fun _ => by rw [Attempt.live, hphase]) ?_ (by intro f hf; cases hf)
          (by intro h; cases h)
        cases removed with
        | false => exact .inl rfl
        | true => exact .inr rfl
      · cases h
  | clean k' removed =>
      simp only [stepOf] at h
      split at h
      · rename_i hphase
        cases h
        cases removed with
        | false => exact hI.over hk
        | true => exact hI.cleanup hk (by rw [Attempt.live, hphase])
      · cases h
  | crash k' =>
      cases h
      exact hI.over hk

theorem inv_step {s s' : State} {l : Label} (hI : Inv s) (hclean : s.clean l = true)
    (h : step s l = some s') : Inv s' := by
  unfold step at h
  split at h
  · cases h
    exact hI.claim _
  · obtain ⟨k, hl, h⟩ := Option.bind_eq_some_iff.mp h
    obtain ⟨a, hk, h⟩ := Option.bind_eq_some_iff.mp h
    exact inv_stepOf hI hk hl hclean h

theorem inv_init : Inv .init where
  good k a h := by cases h
  one k k' a a' d h := by cases h
  bound h d hd := by cases hd
  hermetic p hp := by cases hp

/-- **Output hermeticity.**  In every run of any number of attempts, on any
hosts and with crashes anywhere, in which every attempt prepares a directory
that is new, or empty and used by no other attempt, what an attempt records its
own job wrote. -/
theorem output_hermetic {l : List Label} {s : State}
    (hclean : Machine.Along step (fun s a => s.clean a = true) .init l)
    (h : Machine.run step .init l = some s) : Hermetic s := by
  have hI : Inv s := Machine.inv_run (fun s a s' hI hclean hs => inv_step hI hclean hs) inv_init
    hclean h
  exact hI.hermetic

/-- The daemon dies while a job is running; the next attempt is on the same host,
and its job writes nothing. -/
def crashed : List Label :=
  [ .claim 0
  , .prepare 0
  , .start 0
  , .write 0 "report.csv" true 12 "9f86d081"
  , .crash 0
  , .claim 0
  , .prepare 1
  , .start 1
  , .exit 1
  , .visit 1 "report.csv"
  , .capture 1 true
  , .record 1 true ]

/-- It records the file of the first. -/
theorem not_output_hermetic :
    ¬ ∀ l s, Machine.run step .init l = some s → Hermetic s := by
  intro h
  have hwriter := h crashed _ rfl _ List.mem_cons_self _ List.mem_cons_self
  cases hwriter

/-- The second attempt is on another host. -/
def elsewhere : List Label :=
  [ .claim 0
  , .prepare 0
  , .start 0
  , .write 0 "report.csv" true 12 "9f86d081"
  , .crash 0
  , .claim 1
  , .prepare 1
  , .start 1
  , .write 1 "report.csv" true 7 "2c26b46b"
  , .exit 1
  , .visit 1 "report.csv"
  , .capture 1 true
  , .record 1 true ]

/-- It records what its own job wrote. -/
theorem output_hermetic_elsewhere :
    ∃ s, Machine.run step .init elsewhere = some s ∧ s.recorded ≠ [] ∧ Hermetic s := by
  have hclean : Machine.Along step (fun s a => s.clean a = true) .init elsewhere := by decide
  refine ⟨_, rfl, ?_, output_hermetic hclean rfl⟩
  intro h
  cases h

end Dokan.Ports.OutputDir
