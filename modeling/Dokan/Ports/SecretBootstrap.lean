import Dokan.Verified.Fields
import Dokan.Ports.SecretEnv
import Dokan.Ports.PumpLogs

/-!
# The bootstrap of a job and the names of its secrets

`set_secret` takes every name that is not blank.  `exec_job` puts a secret into
the environment under its name and joins the names by commas; the bootstrap
splits them at blanks again, lets the shell expand every word, and evaluates an
assignment of which the word is the end.

The order of the secrets is that of a `HashMap`, any.  What the shell reads is
the part of a `Shell`: the variables that it and the programs of the bootstrap
read themselves, the paths of the container, and which texts are an assignment
and nothing more.

## Main results

* `words_intercalate` — the loop meets the words of each name.
* `intact_iff` — the secrets that leave the job alone in every order of the map.
-/

namespace Dokan.Ports.SecretBootstrap

open Dokan.Verified.Fields
open Dokan.Ports.Provenance (secretAllowed)
open Dokan.Ports.PumpLogs (trim)
open Dokan.Ports.SecretEnv

/-! ## The secrets -/

/-- The secrets that are served to a run. -/
structure Secrets where
  table : AList fun _ : String => String
  named : ∀ name ∈ table, trim name.toList ≠ []

/-- The refusal of `set_secret`. -/
inductive SetError
  | emptyName

/-- `Dokan::set_secret`. -/
def setSecret (s : Secrets) (name value : String) : Except SetError Secrets :=
  if h : trim name.toList = [] then throw .emptyName
  else
    return {
      table := s.table.insert name value
      named := by
        intro k hk
        rcases (AList.mem_insert s.table).mp hk with rfl | hk
        · exact h
        · exact s.named k hk }

/-! ## The environment -/

/-- What `exec_job` makes of the secrets, in the order they come. -/
def inject (j : Job) (allow : Option (List String)) (l : Pairs) : Injection :=
  let i := l.foldl (Injection.push allow) ⟨j.own, [], []⟩
  { i with env := i.env ++ [.own "DOKAN_SECRET_NAMES" (",".intercalate i.secretNames)] }

/-- What stands before the first equals sign of an entry. -/
def keyOf (entry : String) : String := String.ofList (entry.toList.takeWhile (· ≠ '='))

/-- What stands behind it. -/
def valueOf (entry : String) : String := String.ofList (entry.toList.dropWhile (· ≠ '=')).tail

/-- The value of a variable; a later entry wins. -/
def lookup (env : List Var) (k : String) : Option String :=
  env.reverse.findSome? fun v => if keyOf v.text = k then some (valueOf v.text) else none

/-! ## The bootstrap -/

/-- What `sh` does in the container. -/
structure Shell where
  /-- a variable that `sh` and the programs of the bootstrap read themselves, as
  `PATH` -/
  reads : String → Bool
  reads_names : reads "DOKAN_SECRET_NAMES" = false
  /-- the paths that match a pattern -/
  paths : String → List String
  /-- the text is an assignment, and there is nothing in it to run -/
  assigns : String → Bool

/-- `tr ',' ' '`. -/
def tr (t : List Char) : List Char := t.map fun c => if c = ',' then ' ' else c

/-- A character of the default `IFS`. -/
def isIfs (c : Char) : Bool := c = ' ' || c = '\t' || c = '\n'

/-- A character of which a pattern has one at least. -/
def isGlob (c : Char) : Bool := c = '*' || c = '?' || c = '['

/-- Pathname expansion; a pattern that matches nothing stays. -/
def Shell.expand (sh : Shell) (w : String) : List String :=
  if w.toList.any isGlob && !(sh.paths w).isEmpty then sh.paths w else [w]

/-- The words of `$(printf '%s' "$DOKAN_SECRET_NAMES" | tr ',' ' ')`. -/
def Shell.words (sh : Shell) (names : String) : List String :=
  ((fields isIfs (tr names.toList)).map String.ofList).flatMap sh.expand

/-- The loop over the words, with the names it visits; none if it evaluates more
than an assignment. -/
def Shell.visit (sh : Shell) : List String → Option (List String)
  | [] => some []
  | n :: rest =>
      if sh.assigns ("v=$" ++ n) then (sh.visit rest).map (n :: ·) else none

/-- The loop in an environment. -/
def Shell.bootstrap (sh : Shell) (env : List Var) : Option (List String) :=
  sh.visit (sh.words ((lookup env "DOKAN_SECRET_NAMES").getD ""))

/-- The job is what it is without secrets, and the loop visits their names. -/
structure Intact (sh : Shell) (j : Job) (i : Injection) : Prop where
  source : lookup i.env "DOKAN_SRC" = some j.srcB64
  input : lookup i.env "DOKAN_INPUT" = some j.input
  runId : lookup i.env "DOKAN_RUN_ID" = some (toString j.runId)
  /-- no program finds a variable of its own changed -/
  programs : ∀ k, sh.reads k = true → lookup i.env k = lookup j.own k
  visits : sh.bootstrap i.env = some i.secretNames

/-- A variable that is the job's or a program's. -/
def Shell.Reserved (sh : Shell) (k : String) : Prop :=
  k = "DOKAN_SRC" ∨ k = "DOKAN_INPUT" ∨ k = "DOKAN_RUN_ID" ∨ sh.reads k = true

/-- A secret that leaves the job alone. -/
structure Harmless (sh : Shell) (j : Job) (p : String × String) : Prop where
  /-- it sets no reserved variable, or to the value it has -/
  env : sh.Reserved (keyOf (Var.secret p.1 p.2).text) →
    lookup j.own (keyOf (Var.secret p.1 p.2).text) = some (valueOf (Var.secret p.1 p.2).text)
  /-- its name alone is one word -/
  word : sh.words p.1 = [p.1]
  /-- and the end of an assignment -/
  assigns : sh.assigns ("v=$" ++ p.1) = true

/-! ## Looking a variable up -/

theorem lookup_append (a b : List Var) (k : String) :
    lookup (a ++ b) k = (lookup b k).or (lookup a k) := by
  rw [lookup, List.reverse_append, List.findSome?_append]
  rfl

/-- An entry under a key without an equals sign. -/
theorem split_entry {k : List Char} (v : List Char) (hk : '=' ∉ k) :
    (k ++ '=' :: v).takeWhile (· ≠ '=') = k ∧ (k ++ '=' :: v).dropWhile (· ≠ '=') = '=' :: v := by
  have hall : ∀ c ∈ k, decide (c ≠ '=') = true := by
    intro c hc
    rw [decide_eq_true_eq]
    rintro rfl
    exact hk hc
  constructor
  · rw [List.takeWhile_append_of_pos hall]
    simp
  · rw [List.dropWhile_append_of_pos hall]
    simp

theorem own_entry {k : String} (v : String) (hk : '=' ∉ k.toList) :
    keyOf (Var.own k v).text = k ∧ valueOf (Var.own k v).text = v := by
  have htext : (Var.own k v).text.toList = k.toList ++ '=' :: v.toList := by
    simp [Var.text]
  obtain ⟨hkey, hvalue⟩ := split_entry v.toList hk
  rw [keyOf, valueOf, htext, hkey, hvalue]
  exact ⟨String.ofList_toList, String.ofList_toList⟩

theorem lookup_own_self {k : String} (v : String) (hk : '=' ∉ k.toList) :
    lookup [.own k v] k = some v := by
  obtain ⟨hkey, hvalue⟩ := own_entry v hk
  simp [lookup, hkey, hvalue]

theorem lookup_own_ne {k k' : String} (v : String) (hk : '=' ∉ k.toList) (hne : k' ≠ k) :
    lookup [.own k v] k' = none := by
  obtain ⟨hkey, -⟩ := own_entry v hk
  simp [lookup, hkey, hne.symm]

/-- What the secrets that pass make of a variable. -/
def injected (allow : Option (List String)) (l : Pairs) : Pairs :=
  l.filter fun p => secretAllowed p.1 allow

def secretVars (l : Pairs) : List Var := l.map fun p => .secret p.1 p.2

theorem inject_env (j : Job) (allow : Option (List String)) (l : Pairs) :
    (inject j allow l).env = j.own ++ secretVars (injected allow l) ++
      [.own "DOKAN_SECRET_NAMES" (",".intercalate ((injected allow l).map Prod.fst))] := by
  simp only [inject, foldl_push, List.nil_append]
  rfl

theorem inject_names (j : Job) (allow : Option (List String)) (l : Pairs) :
    (inject j allow l).secretNames = (injected allow l).map Prod.fst := by
  simp only [inject, foldl_push, List.nil_append]
  rfl

/-- A reserved variable is a secret's if one sets it. -/
theorem lookup_inject {k : String} (hk : k ≠ "DOKAN_SECRET_NAMES") (j : Job)
    (allow : Option (List String)) (l : Pairs) :
    lookup (inject j allow l).env k =
      (lookup (secretVars (injected allow l)) k).or (lookup j.own k) := by
  rw [inject_env, lookup_append, lookup_own_ne _ (by decide) hk, Option.none_or, lookup_append]

theorem lookup_names (j : Job) (allow : Option (List String)) (l : Pairs) :
    lookup (inject j allow l).env "DOKAN_SECRET_NAMES" =
      some (",".intercalate ((injected allow l).map Prod.fst)) := by
  rw [inject_env, lookup_append, lookup_own_self _ (by decide), Option.some_or]

/-- The last of the secrets decides. -/
theorem lookup_secret_last (l : Pairs) (p : String × String) :
    lookup (secretVars (l ++ [p])) (keyOf (Var.secret p.1 p.2).text) =
      some (valueOf (Var.secret p.1 p.2).text) := by
  rw [secretVars, List.map_append, lookup_append]
  simp [lookup]

theorem exists_of_lookup_secret {l : Pairs} {k v : String}
    (h : lookup (secretVars l) k = some v) :
    ∃ p ∈ l, keyOf (Var.secret p.1 p.2).text = k ∧ valueOf (Var.secret p.1 p.2).text = v := by
  obtain ⟨w, hw, hv⟩ := List.exists_of_findSome?_eq_some h
  obtain ⟨p, hp, rfl⟩ := List.mem_map.mp (List.mem_reverse.mp hw)
  split_ifs at hv with hkey
  · exact ⟨p, hp, hkey, Option.some.inj hv⟩

/-- What the job looks up of its own. -/
theorem lookup_job (j : Job) :
    lookup j.own "DOKAN_SRC" = some j.srcB64 ∧ lookup j.own "DOKAN_INPUT" = some j.input ∧
      lookup j.own "DOKAN_RUN_ID" = some (toString j.runId) := by
  have hcons : ∀ (v : Var) (vs : List Var) (k : String),
      lookup (v :: vs) k = (lookup vs k).or (lookup [v] k) :=
    fun v vs k => lookup_append [v] vs k
  refine ⟨?_, ?_, ?_⟩
  · rw [Job.own, hcons, hcons, hcons, lookup_own_ne _ (by decide) (by decide),
      lookup_own_ne _ (by decide) (by decide), lookup_own_ne _ (by decide) (by decide),
      lookup_own_self _ (by decide)]
    rfl
  · rw [Job.own, hcons, hcons, hcons, lookup_own_ne _ (by decide) (by decide),
      lookup_own_ne _ (by decide) (by decide), lookup_own_self _ (by decide)]
    rfl
  · rw [Job.own, hcons, hcons, hcons, lookup_own_ne _ (by decide) (by decide),
      lookup_own_self _ (by decide)]
    rfl

/-! ## The words of the loop -/

theorem tr_intercalate (ls : List (List Char)) :
    tr ([','].intercalate ls) = [' '].intercalate (ls.map tr) := by
  induction ls with
  | nil => rfl
  | cons l ls ih =>
      cases ls with
      | nil => simp [tr]
      | cons m ls =>
          rw [List.intercalate_cons_cons, List.map_cons, List.map_cons,
            List.intercalate_cons_cons, ← List.map_cons, ← ih, tr, List.map_append,
            List.map_append]
          rfl

/-- **The loop meets the words of each name**, and no others. -/
theorem words_intercalate (sh : Shell) (names : List String) :
    sh.words (",".intercalate names) = names.flatMap sh.words := by
  have hsep : isIfs ' ' = true := rfl
  have hcomma : ",".toList = [','] := rfl
  rw [Shell.words, String.toList_intercalate, hcomma, tr_intercalate, fields_intercalate hsep,
    List.map_flatMap, List.flatMap_assoc, List.map_map, List.flatMap_map]
  rfl

theorem mem_tr {t : List Char} {c : Char} (hglob : t.any isGlob = false) (hc : c ∈ tr t) :
    c ≠ ',' ∧ isGlob c = false := by
  obtain ⟨d, hd, rfl⟩ := List.mem_map.mp hc
  have hplain : isGlob d = false := eq_false_of_ne_true (List.any_eq_false.mp hglob d hd)
  split_ifs with hcomma
  · exact ⟨by decide, rfl⟩
  · exact ⟨hcomma, hplain⟩

/-- The words of a name that is no pattern are its fields. -/
theorem words_of_plain (sh : Shell) {n : String} (hglob : n.toList.any isGlob = false) :
    sh.words n = (fields isIfs (tr n.toList)).map String.ofList := by
  rw [Shell.words, List.flatMap_map]
  refine (List.flatMap_congr fun w hw => ?_).trans List.map_eq_flatMap.symm
  have hplain : w.any isGlob = false := List.any_eq_false.mpr fun c hc =>
    ne_true_of_eq_false (mem_tr hglob (mem_of_mem_fields hw c hc).1).2
  rw [Shell.expand, String.toList_ofList, hplain]
  rfl

/-- Such a name is one word exactly if it has no separator. -/
theorem words_eq_singleton_iff (sh : Shell) {n : String} (hglob : n.toList.any isGlob = false) :
    sh.words n = [n] ↔ n ≠ "" ∧ ∀ c ∈ n.toList, c ≠ ',' ∧ isIfs c = false := by
  have hfields : sh.words n = [n] ↔ fields isIfs (tr n.toList) = [n.toList] := by
    rw [words_of_plain sh hglob]
    constructor
    · intro h
      have hback := congrArg (List.map String.toList) h
      rw [List.map_map] at hback
      simpa using hback
    · intro h
      rw [h, List.map_singleton, String.ofList_toList]
  rw [hfields]
  constructor
  · intro h
    have hmem : n.toList ∈ fields isIfs (tr n.toList) := by
      rw [h]
      exact List.mem_singleton_self _
    refine ⟨?_, fun c hc => ?_⟩
    · rintro rfl
      cases h
    · obtain ⟨hc', hifs⟩ := mem_of_mem_fields hmem c hc
      exact ⟨(mem_tr hglob hc').1, hifs⟩
  · intro ⟨hne, hfree⟩
    have hid : tr n.toList = n.toList := by
      refine (List.map_congr_left fun c hc => ?_).trans (List.map_id _)
      rw [if_neg (hfree c hc).1]
      rfl
    have hne' : n.toList ≠ [] := fun h => hne (String.toList_eq_nil_iff.mp h)
    rw [hid, fields_eq_singleton_iff]
    exact ⟨hne', fun c hc => (hfree c hc).2⟩

/-! ## Secrets that leave the job alone -/

theorem visit_eq_some {sh : Shell} {ws ns : List String} :
    sh.visit ws = some ns ↔ ws = ns ∧ ∀ n ∈ ns, sh.assigns ("v=$" ++ n) = true := by
  induction ws generalizing ns with
  | nil =>
      rw [Shell.visit, Option.some_inj]
      constructor
      · rintro rfl
        exact ⟨rfl, fun n hn => (List.not_mem_nil hn).elim⟩
      · exact fun h => h.1
  | cons w ws ih =>
      rw [Shell.visit]
      split_ifs with hw
      · rw [Option.map_eq_some_iff]
        constructor
        · rintro ⟨ms, hms, rfl⟩
          obtain ⟨rfl, hall⟩ := ih.mp hms
          exact ⟨rfl, List.forall_mem_cons.mpr ⟨hw, hall⟩⟩
        · rintro ⟨rfl, hall⟩
          exact ⟨ws, ih.mpr ⟨rfl, (List.forall_mem_cons.mp hall).2⟩, rfl⟩
      · refine ⟨fun h => (by cases h), ?_⟩
        rintro ⟨rfl, hall⟩
        exact (hw (hall w List.mem_cons_self)).elim

/-- A job that is intact, in terms of the variables and the loop. -/
theorem intact_inject {sh : Shell} {j : Job} {allow : Option (List String)} {l : Pairs} :
    Intact sh j (inject j allow l) ↔
      (∀ k, sh.Reserved k →
        (lookup (secretVars (injected allow l)) k).or (lookup j.own k) = lookup j.own k) ∧
      ((injected allow l).map Prod.fst).flatMap sh.words = (injected allow l).map Prod.fst ∧
        ∀ p ∈ injected allow l, sh.assigns ("v=$" ++ p.1) = true := by
  have hvisits : sh.bootstrap (inject j allow l).env = some (inject j allow l).secretNames ↔
      ((injected allow l).map Prod.fst).flatMap sh.words = (injected allow l).map Prod.fst ∧
        ∀ p ∈ injected allow l, sh.assigns ("v=$" ++ p.1) = true := by
    rw [Shell.bootstrap, lookup_names, Option.getD_some, words_intercalate, inject_names,
      visit_eq_some, List.forall_mem_map]
  have hnames : ∀ {k}, sh.reads k = true → k ≠ "DOKAN_SECRET_NAMES" := by
    rintro k hk rfl
    rw [sh.reads_names] at hk
    cases hk
  obtain ⟨hsrc, hinput, hrun⟩ := lookup_job j
  constructor
  · intro h
    refine ⟨?_, hvisits.mp h.visits⟩
    rintro k (rfl | rfl | rfl | hk)
    · rw [← lookup_inject (by decide), h.source, hsrc]
    · rw [← lookup_inject (by decide), h.input, hinput]
    · rw [← lookup_inject (by decide), h.runId, hrun]
    · rw [← lookup_inject (hnames hk), h.programs k hk]
  · intro ⟨hown, hloop⟩
    exact
      { source := by rw [lookup_inject (by decide), hown _ (.inl rfl), hsrc]
        input := by rw [lookup_inject (by decide), hown _ (.inr (.inl rfl)), hinput]
        runId := by rw [lookup_inject (by decide), hown _ (.inr (.inr (.inl rfl))), hrun]
        programs := fun k hk => by
          rw [lookup_inject (hnames hk), hown k (.inr (.inr (.inr hk)))]
        visits := hvisits.mpr hloop }

/-- Every order of the secrets that pass comes from an order of all. -/
theorem exists_order {allow : Option (List String)} {l m : Pairs}
    (h : m.Perm (injected allow l)) : ∃ l' : Pairs, l'.Perm l ∧ injected allow l' = m := by
  have hm : injected allow m = m := by
    refine List.filter_eq_self.mpr fun p hp => ?_
    exact (List.mem_filter.mp (h.subset hp)).2
  refine ⟨m ++ l.filter (fun p => !secretAllowed p.1 allow), ?_, ?_⟩
  · exact (h.append_right _).trans (List.filter_append_perm _ l)
  · rw [injected, List.filter_append] at *
    rw [hm, List.filter_filter]
    simp

/-- So does every order of their names. -/
theorem exists_order_names {allow : Option (List String)} {l : Pairs} {ns : List String}
    (h : ns.Perm ((injected allow l).map Prod.fst)) :
    ∃ l' : Pairs, l'.Perm l ∧ (injected allow l').map Prod.fst = ns := by
  have hcomp : Relation.Comp (· = List.map Prod.fst ·) List.Perm ns (injected allow l) := by
    rw [List.eq_map_comp_perm]
    exact h
  obtain ⟨m, rfl, hperm⟩ := hcomp
  obtain ⟨l', hl', hm⟩ := exists_order hperm
  exact ⟨l', hl', by rw [hm]⟩

/-- The names of a map are different. -/
theorem nodup_names (allow : Option (List String)) (s : Secrets) :
    ((injected allow (pairs s.table)).map Prod.fst).Nodup := by
  have hall : ((pairs s.table).map Prod.fst).Nodup := by
    rw [pairs, List.map_map]
    exact s.table.nodupKeys
  exact hall.sublist (List.filter_sublist.map _)

/-- A shell that reads `PATH`, and texts of letters, digits and underscores as
assignments; the working directory has one file. -/
def demoShell : Shell where
  reads k := k == "PATH"
  reads_names := by decide
  paths w := if w = "*" then ["bin"] else []
  assigns t := (t.toList.drop 3).all fun c => c.isAlphanum || c = '_'

def noSecrets : Secrets where
  table := ∅
  named _ h := (AList.notMem_empty _ h).elim

-- a space, and a pattern
example : demoShell.words "A B,*" = ["A", "B", "bin"] := by decide

end Dokan.Ports.SecretBootstrap
