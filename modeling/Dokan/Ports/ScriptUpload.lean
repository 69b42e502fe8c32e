import Dokan.Verified.Machine
import Dokan.Verified.Rows

/-!
# Uploading a script

`upload_script` looks a name up, embeds the description, writes the definition
and then, with a statement of its own, the secret allowlist.  No transaction
holds the statements together, and no index makes a name unique.  A worker's
claim reads the definition in one statement; the allowlist is read later, when
secrets are injected.

A statement takes effect, fails, or takes effect and fails; a call may be cut
off anywhere.  Embeddings and versions of a row are not read by anything here,
nor is the queue: a worker may claim a run of any script.

## Main results

* `one_script` — one script a name, as long as no upsert looks it up in vain
  while another one that did has not inserted.
-/

namespace Dokan.Ports.ScriptUpload

open Dokan.Verified

abbrev ScriptId := Nat
abbrev CallId := Nat
abbrev ExecId := Nat

/-! ## Scripts -/

/-- What an execution reads besides the source. -/
structure Limits where
  runtime : String
  network : Bool
  memLimitMb : Option Int
  cpuLimit : Option Rat
  feedPrevResult : Bool
  timeoutSecs : Option Int
deriving DecidableEq

/-- What one statement writes besides the source. -/
structure Columns extends Limits where
  description : Option String
  createdBy : Option String
deriving DecidableEq

/-- A row of `scripts`. -/
structure Script where
  id : ScriptId
  name : String
  source : String
  columns : Columns
  secretsAllowlist : Option (List String)

/-- `UploadArgs`. -/
structure UploadArgs where
  name : String
  runtime : String
  source : String
  description : Option String
  createdBy : Option String
  upsert : Option Bool
  network : Option Bool
  memLimitMb : Option Int
  cpuLimit : Option Rat
  feedPrevResult : Option Bool
  timeoutSecs : Option Int
  secrets : Option (List String)

def UploadArgs.columns (a : UploadArgs) : Columns where
  runtime := a.runtime
  description := a.description
  createdBy := a.createdBy
  network := a.network.getD false
  memLimitMb := a.memLimitMb
  cpuLimit := a.cpuLimit
  feedPrevResult := a.feedPrevResult.getD false
  timeoutSecs := a.timeoutSecs

/-- `validate_timeout`. -/
def validTimeout (maxSecs : Int) : Option Int → Bool
  | none => true
  | some t => 1 ≤ t && t ≤ maxSecs

/-! ## Calls -/

inductive Reply
  | invalidTimeout
  | uploaded (id : ScriptId) (prior : Option ScriptId)
  | updated (id : ScriptId)
  | metadataUpdated (id : ScriptId)
  | unchanged (id : ScriptId)
  | internal

/-- The point an upload has reached. -/
inductive Pc
  /-- before the `find_script_by_name` of an upsert -/
  | find
  /-- before `update_script_meta` -/
  | updateMeta (id : ScriptId)
  /-- before `update_script` -/
  | update (id : ScriptId)
  /-- before the `find_script_by_name` of an insert -/
  | prior
  /-- before `insert_script` -/
  | insert (prior : Option ScriptId)
  /-- before `set_script_secrets` -/
  | secrets (id : ScriptId) (names : List String) (reply : Reply)
  | answered (reply : Reply)
  /-- its process is gone -/
  | dead

structure Call where
  args : UploadArgs
  pc : Pc

/-- What a claim reads of a script, and the allowlist once it has been read;
the name is history. -/
structure Exec where
  scriptId : ScriptId
  name : String
  source : String
  limits : Limits
  allow : Option (Option (List String))

def Script.exec (row : Script) : Exec where
  scriptId := row.id
  name := row.name
  source := row.source
  limits := row.columns.toLimits
  allow := none

structure Sys where
  /-- in the order of their ids -/
  scripts : List Script
  nextScript : ScriptId
  calls : CallId → Option Call
  execs : ExecId → Option Exec

/-- `Db::find_script_by_name`: the newest one. -/
def Sys.findScriptByName (s : Sys) (name : String) : Option Script :=
  (s.scripts.filter fun row => row.name = name).getLast?

def Sys.find (s : Sys) (id : ScriptId) : Option Script := Rows.find Script.id id s.scripts

def Sys.update (s : Sys) (id : ScriptId) (f : Script → Script) : Sys :=
  { s with scripts := Rows.update Script.id id f s.scripts }

/-- `Db::insert_script`. -/
def Sys.insert (s : Sys) (a : UploadArgs) : Sys :=
  { s with
    scripts := s.scripts ++
      [{ id := s.nextScript, name := a.name, source := a.source, columns := a.columns
         secretsAllowlist := none }]
    nextScript := s.nextScript + 1 }

/-- `Db::update_script`. -/
def Script.update (a : UploadArgs) (row : Script) : Script :=
  { row with source := a.source, columns := a.columns }

/-- `Db::update_script_meta`. -/
def Script.updateMeta (a : UploadArgs) (row : Script) : Script :=
  { row with columns := a.columns }

/-- `Db::set_script_secrets`. -/
def Script.setSecrets (names : List String) (row : Script) : Script :=
  { row with secretsAllowlist := some names }

def Sys.goto (s : Sys) (c : CallId) (a : UploadArgs) (pc : Pc) : Sys :=
  { s with calls := Function.update s.calls c (some ⟨a, pc⟩) }

/-- How a statement ends. -/
inductive Outcome
  | ok
  /-- it failed and had no effect -/
  | err
  /-- it took effect, its answer was an error -/
  | lost
deriving DecidableEq

/-- Past the statement that writes the definition. -/
def UploadArgs.pastWrite (a : UploadArgs) (id : ScriptId) (reply : Reply) : Pc :=
  match a.secrets with
  | some names => .secrets id names reply
  | none => .answered reply

/-- What the next statement of an upload writes. -/
def Sys.written (s : Sys) (a : UploadArgs) : Pc → Sys
  | .updateMeta id => s.update id (Script.updateMeta a)
  | .update id => s.update id (Script.update a)
  | .insert _ => s.insert a
  | .secrets id names _ => s.update id (Script.setSecrets names)
  | _ => s

/-- Where the next statement leads, if it is answered. -/
def Sys.nextPc (s : Sys) (a : UploadArgs) : Pc → Pc
  | .find =>
      match s.findScriptByName a.name with
      | none => .prior
      | some row => if row.source = a.source then .updateMeta row.id else .update row.id
  | .updateMeta id =>
      a.pastWrite id
        (if (s.find id).any fun row => row.columns ≠ a.columns then .metadataUpdated id
         else .unchanged id)
  | .update id =>
      -- `RETURNING version` needs a row
      if (s.find id).isSome then a.pastWrite id (.updated id) else .answered .internal
  | .prior => .insert ((s.findScriptByName a.name).map Script.id)
  | .insert prior => a.pastWrite s.nextScript (.uploaded s.nextScript prior)
  | .secrets _ _ reply => .answered reply
  | .answered reply => .answered reply
  | .dead => .dead

/-- Where a statement leads that is answered with an error; the second lookup
does not matter. -/
def Pc.failed : Pc → Pc
  | .prior => .insert none
  | _ => .answered .internal

def Pc.isOver : Pc → Bool
  | .answered _ | .dead => true
  | _ => false

/-- The next statement of an upload. -/
def Sys.stepCall (s : Sys) (c : CallId) (call : Call) (out : Outcome) : Option Sys :=
  if call.pc.isOver then none
  else
    some (match out with
      | .ok => (s.written call.args call.pc).goto c call.args (s.nextPc call.args call.pc)
      | .err => s.goto c call.args call.pc.failed
      | .lost => (s.written call.args call.pc).goto c call.args call.pc.failed)

/-- Where an upload begins. -/
def UploadArgs.begin (maxSecs : Int) (a : UploadArgs) : Pc :=
  if validTimeout maxSecs a.timeoutSecs then
    if a.upsert.getD false then .find else .prior
  else .answered .invalidTimeout

/-! ## The machine -/

inductive Label
  | upload (c : CallId) (a : UploadArgs)
  | call (c : CallId) (out : Outcome)
  | crash (c : CallId)
  | deleteScript (id : ScriptId)
  /-- `claim_run` takes a run of the script -/
  | claim (e : ExecId) (id : ScriptId)
  /-- `run_secrets_allowlist` -/
  | inject (e : ExecId)

def step (maxSecs : Int) (s : Sys) : Label → Option Sys
  | .upload c a =>
      if (s.calls c).isNone then some (s.goto c a (a.begin maxSecs)) else none
  | .call c out => (s.calls c).bind fun call => s.stepCall c call out
  | .crash c => (s.calls c).map fun call => s.goto c call.args .dead
  | .deleteScript id => some { s with scripts := s.scripts.filter fun row => row.id ≠ id }
  | .claim e id =>
      if (s.execs e).isNone then
        (s.find id).map fun row =>
          { s with execs := Function.update s.execs e (some row.exec) }
      else none
  | .inject e =>
      (s.execs e).bind fun x =>
        if x.allow.isNone then
          let allow := (s.find x.scriptId).bind Script.secretsAllowlist
          some { s with execs := Function.update s.execs e (some { x with allow := some allow }) }
        else none

/-- Scripts, and nothing on its way. -/
def start (scripts : List Script) (nextScript : ScriptId) : Sys where
  scripts
  nextScript
  calls := fun _ => none
  execs := fun _ => none

/-! ## One script a name -/

/-- How many scripts have the name. -/
def Sys.copies (s : Sys) (n : String) : Nat := (s.scripts.map Script.name).count n

/-- The upload is going to insert. -/
def Pc.inserting : Pc → Bool
  | .prior | .insert _ => true
  | _ => false

/-- The upload is going to insert a script of the name. -/
def Call.inserts (n : String) (call : Call) : Prop :=
  call.args.name = n ∧ call.pc.inserting = true

/-- An upsert that finds nothing under the name is alone in that: no other
upload is about to insert it. -/
def FindsAlone (n : String) (s : Sys) : Label → Prop
  | .call c .ok => ∀ call, s.calls c = some call → call.args.name = n → call.pc = .find →
      s.copies n = 0 → ∀ c' call', s.calls c' = some call' → ¬ call'.inserts n
  | _ => True

/-- The uploads of the name are upserts. -/
def Upserts (n : String) : Label → Prop
  | .upload _ a => a.name = n → a.upsert = some true
  | _ => True

/-- Scripts of the name and uploads about to insert one: one at most. -/
structure OneInv (n : String) (s : Sys) : Prop where
  rows : s.copies n ≤ 1
  absent : ∀ c call, s.calls c = some call → call.inserts n → s.copies n = 0
  alone : ∀ c c' call call', s.calls c = some call → s.calls c' = some call' →
    call.inserts n → call'.inserts n → c = c'

section One

variable {n : String} {s s' : Sys} {maxSecs : Int}

theorem findScriptByName_none : s.findScriptByName n = none ↔ s.copies n = 0 := by
  rw [Sys.findScriptByName, List.getLast?_eq_none_iff, List.filter_eq_nil_iff, Sys.copies,
    List.count_eq_zero]
  simp

theorem copies_update {id : ScriptId} {f : Script → Script} (hf : ∀ row, (f row).name = row.name) :
    (s.update id f).copies n = s.copies n := by
  rw [Sys.copies, Sys.update, Rows.map_update hf]
  rfl

/-- Only an insert adds a script, and it is one of its own name. -/
theorem copies_written (a : UploadArgs) (pc : Pc) :
    (s.written a pc).copies n = s.copies n ∨
      pc.inserting = true ∧ a.name = n ∧ (s.written a pc).copies n = s.copies n + 1 := by
  cases pc with
  | updateMeta id => exact .inl (copies_update fun _ => rfl)
  | update id => exact .inl (copies_update fun _ => rfl)
  | secrets id names reply => exact .inl (copies_update fun _ => rfl)
  | insert prior =>
      by_cases hname : a.name = n
      · refine .inr ⟨rfl, hname, ?_⟩
        simp [Sys.written, Sys.insert, Sys.copies, hname]
      · refine .inl ?_
        simp [Sys.written, Sys.insert, Sys.copies, hname]
  | find | prior | answered reply | dead => exact .inl rfl

theorem inserting_pastWrite (a : UploadArgs) (id : ScriptId) (reply : Reply) :
    (a.pastWrite id reply).inserting = false := by
  unfold UploadArgs.pastWrite
  split <;> rfl

/-- An upload is about to insert after the lookup of its name, or after the
lookup for the warning. -/
theorem inserting_nextPc {a : UploadArgs} {pc : Pc} (h : (s.nextPc a pc).inserting = true) :
    pc = .find ∧ s.copies a.name = 0 ∨ pc = .prior := by
  cases pc with
  | find =>
      simp only [Sys.nextPc] at h
      split at h
      · next hnone => exact .inl ⟨rfl, findScriptByName_none.mp hnone⟩
      · split_ifs at h
        · cases h
        · cases h
  | prior => exact .inr rfl
  | updateMeta id =>
      rw [Sys.nextPc, inserting_pastWrite] at h
      cases h
  | update id =>
      simp only [Sys.nextPc] at h
      split_ifs at h
      · rw [inserting_pastWrite] at h
        cases h
      · cases h
  | insert prior =>
      rw [Sys.nextPc, inserting_pastWrite] at h
      cases h
  | secrets id names reply => cases h
  | answered reply => cases h
  | dead => cases h

theorem inserting_failed {pc : Pc} (h : pc.failed.inserting = true) : pc = .prior := by
  cases pc with
  | prior => rfl
  | find | updateMeta id | update id | insert prior | secrets id names reply | answered reply
  | dead => cases h

/-- A call moves that is not about to insert `n`, or was before. -/
theorem OneInv.goto (hI : OneInv n s) {c : CallId} {a : UploadArgs} {pc : Pc}
    (hpc : (Call.mk a pc).inserts n → (∃ call, s.calls c = some call ∧ call.inserts n) ∨
      s.copies n = 0 ∧ ∀ c' call', s.calls c' = some call' → ¬ call'.inserts n) :
    OneInv n (s.goto c a pc) := by
  -- whoever is about to insert after the step
  have hcases : ∀ c' call', (s.goto c a pc).calls c' = some call' → call'.inserts n →
      (∃ call₀, s.calls c' = some call₀ ∧ call₀.inserts n) ∨
      c' = c ∧ s.copies n = 0 ∧ ∀ c' call', s.calls c' = some call' → ¬ call'.inserts n := by
    intro c' call' hc' hins
    simp only [Sys.goto, Function.update_apply] at hc'
    split_ifs at hc' with heq
    · cases hc'
      rcases hpc hins with ⟨call, hc, hins⟩ | ⟨hzero, hnone⟩
      · exact .inl ⟨call, heq ▸ hc, hins⟩
      · exact .inr ⟨heq, hzero, hnone⟩
    · exact .inl ⟨call', hc', hins⟩
  refine ⟨hI.rows, ?_, ?_⟩
  · intro c' call' hc' hins
    rcases hcases c' call' hc' hins with ⟨call₀, hc₀, hins₀⟩ | ⟨_, hzero, _⟩
    · exact hI.absent c' call₀ hc₀ hins₀
    · exact hzero
  · intro c₁ c₂ call₁ call₂ hc₁ hc₂ hins₁ hins₂
    rcases hcases c₁ call₁ hc₁ hins₁ with ⟨call₁', hc₁', hins₁'⟩ | ⟨rfl, _, hnone⟩
    · rcases hcases c₂ call₂ hc₂ hins₂ with ⟨call₂', hc₂', hins₂'⟩ | ⟨_, _, hnone⟩
      · exact hI.alone c₁ c₂ call₁' call₂' hc₁' hc₂' hins₁' hins₂'
      · exact absurd hins₁' (hnone c₁ call₁' hc₁')
    · rcases hcases c₂ call₂ hc₂ hins₂ with ⟨call₂', hc₂', hins₂'⟩ | ⟨heq, _, _⟩
      · exact absurd hins₂' (hnone c₂ call₂' hc₂')
      · exact heq.symm

/-- A statement of a call writes the scripts, and the call is no longer about to
insert if it has. -/
theorem OneInv.write (hI : OneInv n s) {c : CallId} {call : Call} {pc : Pc}
    (hc : s.calls c = some call)
    (hpc : (Call.mk call.args pc).inserts n →
      (s.written call.args call.pc).copies n = s.copies n ∧
        (call.inserts n ∨
          s.copies n = 0 ∧ ∀ c' call', s.calls c' = some call' → ¬ call'.inserts n)) :
    OneInv n ((s.written call.args call.pc).goto c call.args pc) := by
  have hcalls : (s.written call.args call.pc).calls = s.calls := by
    unfold Sys.written
    split <;> rfl
  rcases copies_written (s := s) (n := n) call.args call.pc with hsame | ⟨hins, hname, hmore⟩
  · have hI' : OneInv n (s.written call.args call.pc) :=
      ⟨hsame ▸ hI.rows, hcalls ▸ hsame ▸ hI.absent, hcalls ▸ hI.alone⟩
    refine hI'.goto fun h => ?_
    rw [hcalls, hsame]
    exact (hpc h).2.imp_left fun hins => ⟨call, hc, hins⟩
  · -- the one upload that was about to insert has inserted
    have hzero := hI.absent c call hc ⟨hname, hins⟩
    have hnone : ∀ c' call', ((s.written call.args call.pc).goto c call.args pc).calls c' =
        some call' → ¬ call'.inserts n := by
      intro c' call' hc' hins'
      simp only [Sys.goto, Function.update_apply, hcalls] at hc'
      split_ifs at hc' with heq
      · cases hc'
        have := (hpc hins').1
        omega
      · exact heq (hI.alone c' c call' call hc' hc hins' ⟨hname, hins⟩)
    refine ⟨?_, fun c' call' hc' hins' => absurd hins' (hnone c' call' hc'), ?_⟩
    · show (s.written call.args call.pc).copies n ≤ 1
      omega
    · exact fun c₁ _ call₁ _ hc₁ _ hins₁ _ => absurd hins₁ (hnone c₁ call₁ hc₁)

/-- An upsert of the name does not begin with an insert. -/
theorem inserting_begin {a : UploadArgs} (hup : a.upsert = some true) :
    (a.begin maxSecs).inserting = false := by
  unfold UploadArgs.begin
  rw [hup, Option.getD_some, if_pos rfl]
  split_ifs <;> rfl

theorem OneInv.stepCall (hI : OneInv n s) {c : CallId} {call : Call} {out : Outcome}
    (hc : s.calls c = some call) (hC : FindsAlone n s (.call c out))
    (h : s.stepCall c call out = some s') : OneInv n s' := by
  -- a call on its way to its insert stays on it
  have hprior : ∀ {pc : Pc}, call.pc = .prior → (Call.mk call.args pc).inserts n →
      (s.written call.args call.pc).copies n = s.copies n ∧ call.inserts n := by
    rintro pc hpc ⟨hname, _⟩
    refine ⟨?_, hname, ?_⟩
    · rw [hpc]
      rfl
    · rw [hpc]
      rfl
  unfold Sys.stepCall at h
  split_ifs at h
  cases out with
  | ok =>
      cases h
      refine hI.write hc fun hins => ?_
      rcases inserting_nextPc hins.2 with ⟨hfind, hzero⟩ | hpc
      · have hname : call.args.name = n := hins.1
        rw [hname] at hzero
        refine ⟨?_, .inr ⟨hzero, hC call hc hname hfind hzero⟩⟩
        rw [hfind]
        rfl
      · exact (hprior hpc hins).imp_right Or.inl
  | err =>
      cases h
      refine hI.goto fun hins => .inl ⟨call, hc, ?_⟩
      exact (hprior (inserting_failed hins.2) hins).2
  | lost =>
      cases h
      refine hI.write hc fun hins => ?_
      exact (hprior (inserting_failed hins.2) hins).imp_right Or.inl

/-- **One step** leaves one script a name. -/
theorem OneInv.step {a : Label} (hI : OneInv n s) (hup : Upserts n a) (hC : FindsAlone n s a)
    (h : step maxSecs s a = some s') : OneInv n s' := by
  cases a with
  | upload c a =>
      simp only [ScriptUpload.step] at h
      split_ifs at h
      cases h
      refine hI.goto fun hins => ?_
      have hbegin := hins.2
      rw [inserting_begin (hup hins.1)] at hbegin
      cases hbegin
  | call c out =>
      obtain ⟨call, hc, hs⟩ := Option.bind_eq_some_iff.mp h
      exact hI.stepCall hc hC hs
  | crash c =>
      obtain ⟨call, _, rfl⟩ := Option.map_eq_some_iff.mp h
      refine hI.goto fun hins => ?_
      cases hins.2
  | deleteScript id =>
      cases h
      have hle : ∀ p : Script → Bool,
          ((s.scripts.filter p).map Script.name).count n ≤ s.copies n :=
        fun p => (List.filter_sublist.map _).count_le n
      refine ⟨(hle _).trans hI.rows, fun c call hc hins => ?_, hI.alone⟩
      exact Nat.le_zero.mp ((hle _).trans (Nat.le_of_eq (hI.absent c call hc hins)))
  | claim e id =>
      simp only [ScriptUpload.step] at h
      split_ifs at h
      obtain ⟨row, _, rfl⟩ := Option.map_eq_some_iff.mp h
      exact ⟨hI.rows, hI.absent, hI.alone⟩
  | inject e =>
      obtain ⟨x, _, hs⟩ := Option.bind_eq_some_iff.mp h
      split_ifs at hs
      cases hs
      exact ⟨hI.rows, hI.absent, hI.alone⟩

end One

/-- **One script a name.**  In every interleaving of upserts of a name, from a
state with at most one script of it, every state reached has at most one, as
long as no upsert finds nothing under the name while another upload that found
nothing has not inserted. -/
theorem one_script {maxSecs : Int} {n : String} {scripts : List Script} {next : ScriptId}
    {l : List Label} {s : Sys}
    (hstart : (start scripts next).copies n ≤ 1) (hup : ∀ a ∈ l, Upserts n a)
    (hrun : Machine.run (step maxSecs) (start scripts next) l = some s)
    (hC : Machine.Along (step maxSecs) (FindsAlone n) (start scripts next) l) :
    s.copies n ≤ 1 := by
  have hI : OneInv n (start scripts next) := by
    refine ⟨hstart, ?_, ?_⟩
    · rintro c call ⟨⟩
    · rintro c c' call call' ⟨⟩
  refine (Machine.inv_run (I := OneInv n) ?_ hI
    ((Machine.along_of_forall hup).and hC) hrun).rows
  exact fun s a s' hI hC h => hI.step hC.1 hC.2 h

/-! ## Two agents at once -/

/-- An upsert of `nightly`. -/
def nightly : UploadArgs where
  name := "nightly"
  runtime := "bash"
  source := "echo 1"
  description := none
  createdBy := none
  upsert := some true
  network := none
  memLimitMb := none
  cpuLimit := none
  feedPrevResult := none
  timeoutSecs := none
  secrets := none

/-- Two agents provision the script; the second one looks it up before the first
one has inserted it. -/
def twoUpserts : List Label :=
  [ .upload 0 nightly, .call 0 .ok
  , .upload 1 nightly, .call 1 .ok
  , .call 0 .ok, .call 0 .ok
  , .call 1 .ok, .call 1 .ok ]

/-- Two scripts of one name. -/
theorem not_one_script :
    ¬ ∀ (maxSecs : Int) (n : String) (scripts : List Script) (next : ScriptId) (l : List Label)
        (s : Sys), (start scripts next).copies n ≤ 1 → (∀ a ∈ l, Upserts n a) →
      Machine.run (step maxSecs) (start scripts next) l = some s → s.copies n ≤ 1 := by
  intro h
  have hup : ∀ a ∈ twoUpserts, Upserts "nightly" a := by
    intro a ha
    fin_cases ha <;> first | trivial | exact fun _ => rfl
  have hle := h 3600 "nightly" [] 0 twoUpserts _ (by decide) hup rfl
  exact absurd hle (by decide)

/-- One agent after the other. -/
def upsertsInTurn : List Label :=
  [ .upload 0 nightly, .call 0 .ok, .call 0 .ok, .call 0 .ok
  , .upload 1 nightly, .call 1 .ok, .call 1 .ok ]

/-- `one_script` when the second agent comes after the first one. -/
theorem one_script_inTurn :
    ∃ s, Machine.run (step 3600) (start [] 0) upsertsInTurn = some s ∧
      s.copies "nightly" ≤ 1 := by
  have hup : ∀ a ∈ upsertsInTurn, Upserts "nightly" a := by
    intro a ha
    fin_cases ha <;> first | trivial | exact fun _ => rfl
  have hC : Machine.Along (step 3600) (FindsAlone "nightly") (start [] 0) upsertsInTurn := by
    refine ⟨trivial, fun s hs => ?_⟩
    cases hs
    refine ⟨?_, fun s hs => ?_⟩
    · -- the first upsert is alone
      intro call _ _ _ _ c' call' hc' hins
      simp only [Sys.goto, start, Function.update_apply] at hc'
      split_ifs at hc'
      cases hc'
      cases hins.2
    cases hs
    refine ⟨?_, fun s hs => ?_⟩
    · intro call hc _ hpc
      cases hc
      cases hpc
    cases hs
    refine ⟨?_, fun s hs => ?_⟩
    · intro call hc _ hpc
      cases hc
      cases hpc
    cases hs
    refine ⟨trivial, fun s hs => ?_⟩
    cases hs
    refine ⟨?_, fun s hs => ?_⟩
    · -- the second one finds the script
      intro call _ _ _ hzero
      exact absurd hzero (by decide)
    cases hs
    refine ⟨?_, fun s hs => trivial⟩
    intro call hc _ hpc
    cases hc
    cases hpc
  refine ⟨_, rfl, ?_⟩
  have hstart : (start [] 0).copies "nightly" ≤ 1 := by decide
  exact one_script hstart hup rfl hC

end Dokan.Ports.ScriptUpload
