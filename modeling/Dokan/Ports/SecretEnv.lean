import Mathlib.Data.List.AList
import Dokan.Ports.Provenance

/-!
# The environment of a job

`exec_job` looks up the allowlist of the run's script, then the secrets of the
agent, and builds the environment from both.  Every query may fail, and each
sees the tables of its own moment: between two of them a script may be deleted
with its runs.  A failed lookup of the secrets injects none; a failed lookup of
the allowlist, and one that finds no row, count as no allowlist.

A map read row by row is an `AList`; nothing here depends on its order.

## Main results

* `mem_env` — what is injected is what was served, less what the allowlist
  withholds.
* `allowlist_kept_iff` — when no secret is injected that the stored list lacks.
-/

namespace Dokan.Ports.SecretEnv

open Dokan.Verified.VersionMemo
open Dokan.Ports.Provenance (secretAllowed)

abbrev RunId := Nat
abbrev ScriptId := Nat

/-! ## The lookups -/

/-- Names and values. -/
abbrev Pairs := List (String × String)

/-- The tables at one moment, secrets decrypted. -/
structure Tables where
  /-- `runs.script_id` -/
  scriptIds : RunId → Option ScriptId
  /-- `scripts.secrets_allowlist` -/
  allowlists : ScriptId → Option (Option (List String))
  /-- `secrets` -/
  secrets : Pairs
  /-- `agent_secrets` -/
  agentSecrets : String → Pairs
  /-- `secrets_generation` in `meta` -/
  generation : Int

/-- The row of `runs` joined with `scripts`. -/
def Tables.allowlistRow (t : Tables) (runId : RunId) : Option (Option (List String)) :=
  (t.scriptIds runId).bind t.allowlists

/-- What each query of `exec_job` sees, if it does not fail, and the cache. -/
structure Reads where
  allowlist : Option Tables
  generation : Option Tables
  globals : Option Tables
  agentSecrets : Option Tables
  /-- `Db::secrets_cache` -/
  cache : Memo (Option String) Pairs

/-- `Db::run_secrets_allowlist`; the outer `none` is an error. -/
def Reads.runSecretsAllowlist (r : Reads) (runId : RunId) : Option (Option (List String)) :=
  r.allowlist.map fun t => (t.allowlistRow runId).join

/-- Rows put into a `HashMap`. -/
def collect (m : AList fun _ : String => String) (rows : Pairs) : AList fun _ : String => String :=
  rows.foldl (fun m p => m.insert p.1 p.2) m

def pairs (m : AList fun _ : String => String) : Pairs :=
  m.entries.map fun e => (e.1, e.2)

/-- `Db::load_secrets_for`. -/
def Reads.loadSecretsFor (r : Reads) (agentId : Option String) : Option Pairs :=
  r.globals.bind fun t =>
    match agentId with
    | none => some (pairs (collect ∅ t.secrets))
    | some a =>
        r.agentSecrets.map fun t' => pairs (collect (collect ∅ t.secrets) (t'.agentSecrets a))

/-- `Db::all_secrets_for`. -/
def Reads.allSecretsFor (r : Reads) (agentId : Option String) : Option Pairs :=
  r.generation.bind fun t =>
    match r.cache.lookup t.generation agentId with
    | some v => some v
    | none => r.loadSecretsFor agentId

/-! ## The environment -/

/-- A variable of the environment: one of dokan's own, or a secret. -/
inductive Var
  | own (name value : String)
  | secret (name value : String)
deriving DecidableEq

/-- The string Docker is given. -/
def Var.text : Var → String
  | .own name value | .secret name value => name ++ "=" ++ value

/-- `env`, `secret_vals` and `secret_names`. -/
structure Injection where
  env : List Var
  secretVals : List String
  secretNames : List String

/-- One turn of the loop. -/
def Injection.push (allow : Option (List String)) (i : Injection) (p : String × String) :
    Injection :=
  if secretAllowed p.1 allow then
    { env := i.env ++ [.secret p.1 p.2]
      secretVals := if 8 ≤ p.2.utf8ByteSize then i.secretVals ++ [p.2] else i.secretVals
      secretNames := i.secretNames ++ [p.1] }
  else i

structure Job where
  runId : RunId
  agentId : Option String
  srcB64 : String
  input : String

def Job.own (j : Job) : List Var :=
  [ .own "DOKAN_SRC" j.srcB64
  , .own "DOKAN_INPUT" j.input
  , .own "DOKAN_RUN_ID" (toString j.runId)
  , .own "HOME" "/tmp" ]

/-- The part of `exec_job` that injects secrets. -/
def execJob (j : Job) (r : Reads) : Injection :=
  -- `.ok().flatten()`
  let allow := (r.runSecretsAllowlist j.runId).join
  let i := ((r.allSecretsFor j.agentId).getD []).foldl (Injection.push allow) ⟨j.own, [], []⟩
  { i with env := i.env ++ [.own "DOKAN_SECRET_NAMES" (",".intercalate i.secretNames)] }

/-! ## What is injected -/

section Loop

variable {allow : Option (List String)} {l : Pairs} {i : Injection}

/-- The secrets that pass, in the order they are served. -/
theorem foldl_push :
    (l.foldl (Injection.push allow) i).env =
        i.env ++ (l.filter fun p => secretAllowed p.1 allow).map (fun p => .secret p.1 p.2) ∧
      (l.foldl (Injection.push allow) i).secretNames =
        i.secretNames ++ (l.filter fun p => secretAllowed p.1 allow).map Prod.fst := by
  induction l generalizing i with
  | nil => simp
  | cons p l ih =>
      rw [List.foldl_cons, ih.1, ih.2]
      by_cases hp : secretAllowed p.1 allow = true
      · simp [Injection.push, hp]
      · simp [Injection.push, hp]

/-- Every injected value of eight bytes and more is redacted. -/
theorem mem_secretVals {p : String × String} (hp : p ∈ l)
    (hallowed : secretAllowed p.1 allow = true) (hlen : 8 ≤ p.2.utf8ByteSize) :
    p.2 ∈ (l.foldl (Injection.push allow) i).secretVals := by
  have hkeep : ∀ (l : Pairs) (i : Injection), p.2 ∈ i.secretVals →
      p.2 ∈ (l.foldl (Injection.push allow) i).secretVals := by
    intro l
    induction l with
    | nil => exact fun _ h => h
    | cons q l ih =>
        intro i h
        refine ih _ ?_
        unfold Injection.push
        split_ifs
        · exact List.mem_append_left _ h
        · exact h
        · exact h
  induction l generalizing i with
  | nil => cases hp
  | cons q l ih =>
      rcases List.mem_cons.mp hp with rfl | hp
      · refine hkeep l _ ?_
        rw [Injection.push, if_pos hallowed, if_pos hlen]
        exact List.mem_append_right _ List.mem_cons_self
      · exact ih hp

end Loop

/-- A secret of the environment was served, and the allowlist that was read lets
it pass. -/
theorem mem_env {j : Job} {r : Reads} {name value : String} :
    .secret name value ∈ (execJob j r).env ↔
      (name, value) ∈ (r.allSecretsFor j.agentId).getD [] ∧
        secretAllowed name (r.runSecretsAllowlist j.runId).join = true := by
  have hown : Var.secret name value ∉ j.own := by
    simp [Job.own]
  simp only [execJob, List.mem_append, foldl_push.1, hown, false_or]
  constructor
  · rintro (hmem | hmem)
    · obtain ⟨p, hp, heq⟩ := List.mem_map.mp hmem
      cases heq
      exact List.mem_filter.mp hp
    · simp at hmem
  · exact fun h => .inl (List.mem_map.mpr ⟨(name, value), List.mem_filter.mpr h, rfl⟩)

/-! ## Which names are served -/

theorem keys_collect {m : AList fun _ : String => String} {rows : Pairs} {name : String} :
    name ∈ collect m rows ↔ name ∈ m ∨ name ∈ rows.map Prod.fst := by
  induction rows generalizing m with
  | nil => simp [collect]
  | cons p rows ih =>
      have hfold : collect m (p :: rows) = collect (m.insert p.1 p.2) rows := rfl
      rw [hfold, ih, AList.mem_insert, List.map_cons, List.mem_cons]
      tauto

theorem names_pairs {m : AList fun _ : String => String} {name : String} :
    name ∈ (pairs m).map Prod.fst ↔ name ∈ m := by
  rw [AList.mem_keys, AList.keys, List.keys, pairs, List.map_map]
  rfl

/-- A name that the lookups of the secrets show, none of them failing. -/
def Reads.Shows (r : Reads) (agentId : Option String) (name : String) : Prop :=
  ∃ t, r.generation = some t ∧
    match r.cache.lookup t.generation agentId with
    | some v => name ∈ v.map Prod.fst
    | none => ∃ g, r.globals = some g ∧
        match agentId with
        | none => name ∈ g.secrets.map Prod.fst
        | some a => ∃ t', r.agentSecrets = some t' ∧
            (name ∈ g.secrets.map Prod.fst ∨ name ∈ (t'.agentSecrets a).map Prod.fst)

theorem shows_iff {r : Reads} {agentId : Option String} {name : String} :
    r.Shows agentId name ↔ ∃ value, (name, value) ∈ (r.allSecretsFor agentId).getD [] := by
  have hnames : (∃ value, (name, value) ∈ (r.allSecretsFor agentId).getD []) ↔
      name ∈ ((r.allSecretsFor agentId).getD []).map Prod.fst := by
    simp
  have hempty : name ∉ (∅ : AList fun _ : String => String) := AList.notMem_empty name
  rw [hnames, Reads.Shows, Reads.allSecretsFor]
  cases r.generation with
  | none => simp
  | some t =>
      simp only [Option.some.injEq, exists_eq_left', Option.bind_some]
      cases r.cache.lookup t.generation agentId with
      | some v => rfl
      | none =>
          simp only [Reads.loadSecretsFor]
          cases r.globals with
          | none => simp
          | some g =>
              simp only [Option.some.injEq, exists_eq_left', Option.bind_some]
              cases agentId with
              | none => simp only [Option.getD_some, names_pairs, keys_collect, hempty, false_or]
              | some a =>
                  cases r.agentSecrets with
                  | none => simp
                  | some t' =>
                      simp only [Option.some.injEq, exists_eq_left', Option.map_some,
                        Option.getD_some, names_pairs, keys_collect, hempty, false_or]

/-! ## The stored list -/

/-- **The allowlist is kept** exactly if the run's row is found, or no name
outside the list is shown.  The list is `names` as long as the row is there. -/
theorem allowlist_kept_iff {j : Job} {r : Reads} {names : List String}
    (hstored : ∀ t row, r.allowlist = some t → t.allowlistRow j.runId = some row →
      row = some names) :
    (∀ name value, .secret name value ∈ (execJob j r).env → name ∈ names) ↔
      (∃ t, r.allowlist = some t ∧ (t.allowlistRow j.runId).isSome) ∨
        ∀ name, r.Shows j.agentId name → name ∈ names := by
  have hgone : (¬ ∃ t, r.allowlist = some t ∧ (t.allowlistRow j.runId).isSome) →
      (r.runSecretsAllowlist j.runId).join = none := by
    intro hno
    unfold Reads.runSecretsAllowlist
    cases hallowlist : r.allowlist with
    | none => rfl
    | some t =>
        cases hrow : t.allowlistRow j.runId with
        | none => simp [hrow]
        | some row => exact absurd ⟨t, hallowlist, by rw [hrow]; rfl⟩ hno
  constructor
  · intro hkept
    by_cases hfound : ∃ t, r.allowlist = some t ∧ (t.allowlistRow j.runId).isSome
    · exact .inl hfound
    · -- everything that is shown is injected
      refine .inr fun name hshows => ?_
      obtain ⟨value, hserved⟩ := shows_iff.mp hshows
      refine hkept name value (mem_env.mpr ⟨hserved, ?_⟩)
      rw [hgone hfound]
      rfl
  · rintro (⟨t, hallowlist, hfound⟩ | hshown) name value hmem
    · obtain ⟨row, hrow⟩ := Option.isSome_iff_exists.mp hfound
      have hallow : (r.runSecretsAllowlist j.runId).join = some names := by
        rw [Reads.runSecretsAllowlist, hallowlist, Option.map_some, hrow,
          hstored t row hallowlist hrow]
        rfl
      have hallowed := (mem_env.mp hmem).2
      rw [hallow] at hallowed
      exact List.contains_iff_mem.mp hallowed
    · exact hshown name (shows_iff.mpr ⟨value, (mem_env.mp hmem).1⟩)

/-! ## A lookup that fails -/

/-- A script with a list of one secret, and two secrets. -/
def twoKeys : Tables where
  scriptIds := fun _ => some 0
  allowlists := fun _ => some (some ["BOT_TOKEN"])
  secrets := [("BOT_TOKEN", "123"), ("OPENAI_API_KEY", "sk-123")]
  agentSecrets := fun _ => []
  generation := 2

def allAnswered : Reads where
  allowlist := some twoKeys
  generation := some twoKeys
  globals := some twoKeys
  agentSecrets := some twoKeys
  cache := ⟨-1, fun _ => none⟩

def botJob : Job where
  runId := 1
  agentId := some "bot"
  srcB64 := ""
  input := "null"

/-- `allowlist_kept_iff` when every query is answered: the secret of the list is
injected, and no other. -/
theorem allowlist_kept_answered :
    .secret "BOT_TOKEN" "123" ∈ (execJob botJob allAnswered).env ∧
      ∀ name value, .secret name value ∈ (execJob botJob allAnswered).env →
        name ∈ ["BOT_TOKEN"] := by
  refine ⟨by decide, (allowlist_kept_iff ?_).mpr (.inl ⟨twoKeys, rfl, rfl⟩)⟩
  intro t row ht hrow
  cases ht
  cases hrow
  rfl

/-- The lookup of the allowlist fails, and the other key is injected. -/
theorem not_allowlist_kept :
    ¬ ∀ (j : Job) (r : Reads) (names : List String),
      (∀ t row, r.allowlist = some t → t.allowlistRow j.runId = some row → row = some names) →
      ∀ name value, .secret name value ∈ (execJob j r).env → name ∈ names := by
  intro h
  have hmem := h botJob { allAnswered with allowlist := none } ["BOT_TOKEN"]
    (fun t row ht => by cases ht) "OPENAI_API_KEY" "sk-123" (by decide)
  exact absurd hmem (by decide)

end Dokan.Ports.SecretEnv
