import Dokan.Ports.ScriptUpload

/-!
# What an execution reads of a script

An execution reads the definition of its script when it is claimed and the
secret allowlist when secrets are injected; an upload writes them in two
statements, and leaves the allowlist alone if it names no secrets.

## Main results

* `WholeInv.step` — a script is what one upload made it, or an upload is between
  its two statements.
* `execution_whole` — executions see what one upload wrote, as long as uploads
  are not cut off, leave no older allowlist in place, and neither overlap nor
  come between the two reads.
-/

namespace Dokan.Ports.ScriptUpload

open Dokan.Verified

/-! ## Uploads one at a time -/

/-- An upload of the script is between its two statements. -/
def Sys.BetweenWrites (s : Sys) (id : ScriptId) : Prop :=
  ∃ c call names reply, s.calls c = some call ∧ call.pc = .secrets id names reply

/-- An execution of the script is between its two reads. -/
def Sys.BetweenReads (s : Sys) (id : ScriptId) : Prop :=
  ∃ e x, s.execs e = some x ∧ x.scriptId = id ∧ x.allow = none

/-- The list of the row is that of the upload, or the upload goes on to write
it. -/
def UploadArgs.SetsList (a : UploadArgs) (list : Option (List String)) (out : Outcome) : Prop :=
  a.secrets = list ∨ a.secrets.isSome = true ∧ out = .ok

/-- An upload that may write the row now. -/
def Sys.Alone (s : Sys) (a : UploadArgs) (id : ScriptId) (out : Outcome) : Prop :=
  ∀ row, s.find id = some row →
    ¬ s.BetweenWrites id ∧ ¬ s.BetweenReads id ∧ a.SetsList row.secretsAllowlist out

/-- Uploads of a script come one after the other, none is cut off between its
statements or leaves an older list in place, and none comes between the reads of
an execution. -/
def InTurn (s : Sys) : Label → Prop
  | .call c out => ∀ call, s.calls c = some call →
      match call.pc with
      | .updateMeta id => out ≠ .err → s.Alone call.args id out ∧
          ∀ row, s.find id = some row → row.source = call.args.source
      | .update id => out ≠ .err → s.Alone call.args id out
      | .insert _ => out ≠ .err → call.args.SetsList none out
      | .secrets _ _ _ => out ≠ .err
      | _ => True
  | .crash c => ∀ call, s.calls c = some call →
      ∀ id names reply, call.pc ≠ .secrets id names reply
  | .claim _ id => ¬ s.BetweenWrites id
  | .deleteScript id => ¬ s.BetweenReads id
  | _ => True

/-- Some upload has these arguments. -/
def Sys.Uploaded (s : Sys) (a : UploadArgs) : Prop :=
  ∃ c call, s.calls c = some call ∧ call.args = a

/-- What the execution uses is what one upload says. -/
def Sys.SawOne (s : Sys) (x : Exec) (allow : Option (List String)) : Prop :=
  ∃ a, s.Uploaded a ∧ a.name = x.name ∧ a.source = x.source ∧ a.columns.toLimits = x.limits ∧
    a.secrets = allow

/-- Every execution that has its secrets uses what one upload says. -/
def Whole (s : Sys) : Prop :=
  ∀ e x allow, s.execs e = some x → x.allow = some allow → s.SawOne x allow

/-! ## The invariant -/

/-- The script an upload is going to write. -/
def Pc.target : Pc → Option ScriptId
  | .updateMeta id | .update id | .secrets id _ _ => some id
  | _ => none

/-- The row is what an upload says, but for a list that is on its way. -/
def Sys.RowOk (s : Sys) (id : ScriptId) (row : Script) : Prop :=
  ∃ a, s.Uploaded a ∧ a.name = row.name ∧ a.source = row.source ∧ a.columns = row.columns ∧
    (a.secrets = row.secretsAllowlist ∨ s.BetweenWrites id)

/-- An upload between its statements has written the definition and will write
its list, and nobody has read the one without the other. -/
structure Half (s : Sys) (a : UploadArgs) (id : ScriptId) (names : List String) : Prop where
  list : a.secrets = some names
  row : ∀ row, s.find id = some row → a.source = row.source ∧ a.columns = row.columns
  unread : ¬ s.BetweenReads id

/-- The execution has read the row of its script. -/
def Sys.HasRead (s : Sys) (x : Exec) : Prop :=
  ∃ row, s.find x.scriptId = some row ∧ x.name = row.name ∧ x.source = row.source ∧
    x.limits = row.columns.toLimits

/-- Scripts, uploads and executions fit together. -/
structure WholeInv (s : Sys) : Prop where
  nodup : (s.scripts.map Script.id).Nodup
  fresh : ∀ id, s.nextScript ≤ id → s.find id = none
  rows : ∀ id row, s.find id = some row → row.id = id ∧ s.RowOk id row
  target : ∀ c call id, s.calls c = some call → call.pc.target = some id →
    id < s.nextScript ∧ ∀ row, s.find id = some row → row.name = call.args.name
  half : ∀ c call id names reply, s.calls c = some call → call.pc = .secrets id names reply →
    Half s call.args id names
  one : ∀ c c' call call' id names names' reply reply', s.find id ≠ none →
    s.calls c = some call → s.calls c' = some call' → call.pc = .secrets id names reply →
    call'.pc = .secrets id names' reply' → c = c'
  reads : ∀ e x, s.execs e = some x → x.allow = none → s.HasRead x
  whole : Whole s

section Steps

variable {s s' : Sys}

/-- Requests of uploads are not forgotten. -/
theorem uploaded_update {c : CallId} {a a' : UploadArgs} {pc : Pc}
    (hcalls : s'.calls = Function.update s.calls c (some ⟨a, pc⟩))
    (hc : ∀ call, s.calls c = some call → call.args = a) (h : s.Uploaded a') :
    s'.Uploaded a' := by
  obtain ⟨c', call, hc', rfl⟩ := h
  by_cases heq : c' = c
  · subst heq
    refine ⟨c', ⟨a, pc⟩, ?_, (hc call hc').symm⟩
    rw [hcalls, Function.update_self]
  · refine ⟨c', call, ?_, rfl⟩
    rw [hcalls, Function.update_of_ne heq]
    exact hc'

theorem SawOne.mono {x : Exec} {allow : Option (List String)}
    (hup : ∀ a, s.Uploaded a → s'.Uploaded a) (h : s.SawOne x allow) : s'.SawOne x allow := by
  obtain ⟨a, ha, hrest⟩ := h
  exact ⟨a, hup a ha, hrest⟩

/-- Nobody has read half of a script that is not there. -/
theorem WholeInv.unread (hI : WholeInv s) {id : ScriptId} (hnone : s.find id = none) :
    ¬ s.BetweenReads id := by
  rintro ⟨e, x, hx, rfl, hallow⟩
  obtain ⟨row, hrow, _⟩ := hI.reads e x hx hallow
  rw [hnone] at hrow
  cases hrow

/-- **An upload moves** and no script changes; if it is, or comes, between its
two statements, the script is not there. -/
theorem WholeInv.goto (hI : WholeInv s) {c : CallId} {a : UploadArgs} {pc : Pc}
    (hc : ∀ call, s.calls c = some call →
      call.args = a ∧ ∀ id names reply, call.pc = .secrets id names reply → s.find id = none)
    (hpc : ∀ id names reply, pc = .secrets id names reply →
      s.find id = none ∧ a.secrets = some names)
    (htarget : ∀ id, pc.target = some id →
      id < s.nextScript ∧ ∀ row, s.find id = some row → row.name = a.name) :
    WholeInv (s.goto c a pc) := by
  have hcalls : (s.goto c a pc).calls = Function.update s.calls c (some ⟨a, pc⟩) := rfl
  have hup : ∀ a', s.Uploaded a' → (s.goto c a pc).Uploaded a' := fun a' h =>
    uploaded_update hcalls (fun call h => (hc call h).1) h
  -- a call between its statements of a script that is there is another one
  have hsecrets : ∀ c' call' id names reply, s.find id ≠ none →
      (s.goto c a pc).calls c' = some call' → call'.pc = .secrets id names reply →
      s.calls c' = some call' := by
    intro c' call' id names reply hfind hc' hpc'
    simp only [Sys.goto, Function.update_apply] at hc'
    split_ifs at hc'
    · cases hc'
      exact absurd (hpc id names reply hpc').1 hfind
    · exact hc'
  have hbetween : ∀ id, s.find id ≠ none → s.BetweenWrites id →
      (s.goto c a pc).BetweenWrites id := by
    rintro id hfind ⟨c', call', names, reply, hc', hpc'⟩
    refine ⟨c', call', names, reply, ?_, hpc'⟩
    have hne : c' ≠ c := by
      rintro rfl
      exact hfind ((hc call' hc').2 id names reply hpc')
    simp only [Sys.goto, Function.update_of_ne hne]
    exact hc'
  refine ⟨hI.nodup, hI.fresh, ?_, ?_, ?_, ?_, hI.reads, ?_⟩
  · intro id row hrow
    obtain ⟨hid, a', ha', hname, hsource, hcolumns, hlist⟩ := hI.rows id row hrow
    have hfind : s.find id ≠ none := by
      rw [show s.find id = some row from hrow]
      exact Option.some_ne_none row
    exact ⟨hid, a', hup a' ha', hname, hsource, hcolumns, hlist.imp_right (hbetween id hfind)⟩
  · intro c' call' id hc' ht
    simp only [Sys.goto, Function.update_apply] at hc'
    split_ifs at hc'
    · cases hc'
      exact htarget id ht
    · exact hI.target c' call' id hc' ht
  · intro c' call' id names reply hc' hpc'
    simp only [Sys.goto, Function.update_apply] at hc'
    split_ifs at hc'
    · cases hc'
      obtain ⟨hnone, hlist⟩ := hpc id names reply hpc'
      refine ⟨hlist, fun row hrow => ?_, hI.unread hnone⟩
      rw [show s.find id = some row from hrow] at hnone
      cases hnone
    · obtain ⟨hlist, hrow, hunread⟩ := hI.half c' call' id names reply hc' hpc'
      exact ⟨hlist, hrow, hunread⟩
  · intro c₁ c₂ call₁ call₂ id names₁ names₂ reply₁ reply₂ hfind hc₁ hc₂ hpc₁ hpc₂
    exact hI.one c₁ c₂ call₁ call₂ id names₁ names₂ reply₁ reply₂ hfind
      (hsecrets c₁ call₁ id names₁ reply₁ hfind hc₁ hpc₁)
      (hsecrets c₂ call₂ id names₂ reply₂ hfind hc₂ hpc₂) hpc₁ hpc₂
  · intro e x allow hx hallow
    exact SawOne.mono hup (hI.whole e x allow hx hallow)

/-- Upload `c` leaves `row'` in the place of script `id`, and goes to `pc`. -/
structure Writes (s s' : Sys) (c : CallId) (call : Call) (pc : Pc) (id : ScriptId)
    (row' : Script) : Prop where
  here : s.calls c = some call
  calls : s'.calls = Function.update s.calls c (some ⟨call.args, pc⟩)
  execs : s'.execs = s.execs
  nodup : (s'.scripts.map Script.id).Nodup
  next : s.nextScript ≤ s'.nextScript
  lt : id < s'.nextScript
  find : ∀ j, s'.find j = if j = id then some row' else s.find j
  same : row'.id = id
  /-- the script is new, or keeps its name -/
  name : row'.name = call.args.name ∧
    (s.nextScript ≤ id ∨ ∃ row, s.find id = some row ∧ row.name = row'.name)
  source : call.args.source = row'.source
  columns : call.args.columns = row'.columns
  /-- no other upload is between its statements -/
  others : ∀ c' call' names reply, s.calls c' = some call' →
    call'.pc = .secrets id names reply → c' = c
  own : ∀ j names reply, call.pc = .secrets j names reply → j = id
  unread : ¬ s.BetweenReads id
  list : pc.target = none ∧ call.args.secrets = row'.secretsAllowlist ∨
    ∃ names reply, pc = .secrets id names reply ∧ call.args.secrets = some names

section Write

variable {c c' : CallId} {call call' : Call} {pc : Pc} {id j : ScriptId} {row' : Script}
  {names : List String} {reply : Reply}

theorem Writes.uploaded (h : Writes s s' c call pc id row') {a : UploadArgs}
    (ha : s.Uploaded a) : s'.Uploaded a := by
  refine uploaded_update h.calls (fun call' hc' => ?_) ha
  rw [h.here] at hc'
  rw [Option.some.inj hc']

theorem Writes.self (h : Writes s s' c call pc id row') :
    s'.calls c = some ⟨call.args, pc⟩ := by
  rw [h.calls, Function.update_self]

/-- The calls between their statements of another script. -/
theorem Writes.other (h : Writes s s' c call pc id row') (hc' : s'.calls c' = some call')
    (hpc' : call'.pc = .secrets j names reply) (hj : j ≠ id) : s.calls c' = some call' := by
  rw [h.calls, Function.update_apply] at hc'
  split_ifs at hc'
  · cases hc'
    rcases h.list with ⟨hnone, _⟩ | ⟨names', reply', hpc, _⟩
    · rw [show pc = .secrets j names reply from hpc'] at hnone
      cases hnone
    · rw [show pc = .secrets j names reply from hpc'] at hpc
      cases hpc
      exact absurd rfl hj
  · exact hc'

/-- The call between its statements of this one. -/
theorem Writes.this (h : Writes s s' c call pc id row') (hc' : s'.calls c' = some call')
    (hpc' : call'.pc = .secrets id names reply) :
    c' = c ∧ call' = ⟨call.args, pc⟩ ∧ call.args.secrets = some names := by
  rw [h.calls, Function.update_apply] at hc'
  split_ifs at hc' with heq
  · cases hc'
    refine ⟨heq, rfl, ?_⟩
    rcases h.list with ⟨hnone, _⟩ | ⟨names', reply', hpc, hlist⟩
    · rw [show pc = .secrets id names reply from hpc'] at hnone
      cases hnone
    · rw [show pc = .secrets id names reply from hpc'] at hpc
      cases hpc
      exact hlist
  · exact absurd (h.others c' call' names reply hc' hpc') heq

theorem Writes.between (h : Writes s s' c call pc id row') (hj : j ≠ id)
    (hbetween : s.BetweenWrites j) : s'.BetweenWrites j := by
  obtain ⟨c', call', names, reply, hc', hpc'⟩ := hbetween
  have hne : c' ≠ c := by
    rintro rfl
    rw [h.here] at hc'
    cases hc'
    exact hj (h.own j names reply hpc')
  refine ⟨c', call', names, reply, ?_, hpc'⟩
  rw [h.calls, Function.update_of_ne hne]
  exact hc'

theorem Writes.unreadHalf (h : Writes s s' c call pc id row') (hno : ¬ s.BetweenReads j) :
    ¬ s'.BetweenReads j := by
  rintro ⟨e, x, hx, hrest⟩
  rw [h.execs] at hx
  exact hno ⟨e, x, hx, hrest⟩

/-- The written row, and the others, are what an upload says. -/
theorem Writes.rowOk (h : Writes s s' c call pc id row') (hI : WholeInv s) {row : Script}
    (hrow : s'.find j = some row) : row.id = j ∧ s'.RowOk j row := by
  rw [h.find] at hrow
  split_ifs at hrow with hj
  · cases hrow
    subst hj
    refine ⟨h.same, call.args, ⟨c, _, h.self, rfl⟩, h.name.1.symm, h.source, h.columns, ?_⟩
    rcases h.list with ⟨_, hlist⟩ | ⟨names, reply, hpc, _⟩
    · exact .inl hlist
    · exact .inr ⟨c, _, names, reply, h.self, hpc⟩
  · obtain ⟨hid, a, ha, hname, hsource, hcolumns, hlist⟩ := hI.rows j row hrow
    exact ⟨hid, a, h.uploaded ha, hname, hsource, hcolumns, hlist.imp_right (h.between hj)⟩

/-- A script that is about to be written keeps its name. -/
theorem Writes.keepsName (h : Writes s s' c call pc id row') {n : String}
    (hlt : j < s.nextScript) (hnames : ∀ row, s.find j = some row → row.name = n) :
    j < s'.nextScript ∧ ∀ row, s'.find j = some row → row.name = n := by
  refine ⟨Nat.lt_of_lt_of_le hlt h.next, fun row hrow => ?_⟩
  rw [h.find] at hrow
  split_ifs at hrow with hj
  · cases hrow
    subst hj
    rcases h.name.2 with hfresh | ⟨row, hfound, hname⟩
    · exact absurd hlt (Nat.not_lt.mpr hfresh)
    · rw [← hname]
      exact hnames row hfound
  · exact hnames row hrow

theorem Writes.target (h : Writes s s' c call pc id row') (hI : WholeInv s)
    (hc' : s'.calls c' = some call') (ht : call'.pc.target = some j) :
    j < s'.nextScript ∧ ∀ row, s'.find j = some row → row.name = call'.args.name := by
  rw [h.calls, Function.update_apply] at hc'
  split_ifs at hc'
  · cases hc'
    rcases h.list with ⟨hnone, _⟩ | ⟨names, reply, rfl, _⟩
    · rw [show pc.target = some j from ht] at hnone
      cases hnone
    · cases ht
      refine ⟨h.lt, fun row hrow => ?_⟩
      rw [h.find, if_pos rfl] at hrow
      rw [← Option.some.inj hrow]
      exact h.name.1
  · obtain ⟨hlt, hnames⟩ := hI.target c' call' j hc' ht
    exact h.keepsName hlt hnames

theorem Writes.half (h : Writes s s' c call pc id row') (hI : WholeInv s)
    (hc' : s'.calls c' = some call') (hpc' : call'.pc = .secrets j names reply) :
    Half s' call'.args j names := by
  by_cases hj : j = id
  · subst hj
    obtain ⟨rfl, rfl, hlist⟩ := h.this hc' hpc'
    refine ⟨hlist, fun row hrow => ?_, h.unreadHalf h.unread⟩
    rw [h.find, if_pos rfl] at hrow
    rw [← Option.some.inj hrow]
    exact ⟨h.source, h.columns⟩
  · obtain ⟨hlist, hrow, hno⟩ := hI.half c' call' j names reply (h.other hc' hpc' hj) hpc'
    refine ⟨hlist, fun row hrow' => ?_, h.unreadHalf hno⟩
    rw [h.find, if_neg hj] at hrow'
    exact hrow row hrow'

/-- **An upload writes** a script, alone. -/
theorem WholeInv.write (hI : WholeInv s) (h : Writes s s' c call pc id row') : WholeInv s' := by
  constructor
  case nodup => exact h.nodup
  case fresh =>
      intro j hj
      have hne : j ≠ id := fun heq => absurd h.lt (by rw [← heq]; exact Nat.not_lt.mpr hj)
      rw [h.find, if_neg hne]
      exact hI.fresh j (h.next.trans hj)
  case rows => exact fun j row hrow => h.rowOk hI hrow
  case target => exact fun c' call' j hc' ht => h.target hI hc' ht
  case half => exact fun c' call' j names reply hc' hpc' => h.half hI hc' hpc'
  case one =>
      intro c₁ c₂ call₁ call₂ j names₁ names₂ reply₁ reply₂ hfind hc₁ hc₂ hpc₁ hpc₂
      by_cases hj : j = id
      · subst hj
        exact (h.this hc₁ hpc₁).1.trans (h.this hc₂ hpc₂).1.symm
      · rw [h.find, if_neg hj] at hfind
        exact hI.one c₁ c₂ call₁ call₂ j names₁ names₂ reply₁ reply₂ hfind
          (h.other hc₁ hpc₁ hj) (h.other hc₂ hpc₂ hj) hpc₁ hpc₂
  case reads =>
      intro e x hx hallow
      rw [h.execs] at hx
      obtain ⟨row, hrow, hrest⟩ := hI.reads e x hx hallow
      have hne : x.scriptId ≠ id := fun heq => h.unread ⟨e, x, hx, heq, hallow⟩
      exact ⟨row, by rw [h.find, if_neg hne]; exact hrow, hrest⟩
  case whole =>
      intro e x allow hx hallow
      rw [h.execs] at hx
      exact SawOne.mono (fun _ => h.uploaded) (hI.whole e x allow hx hallow)

end Write

/-! ## The statements of an upload -/

theorem find_update (id j : ScriptId) {f : Script → Script} (hf : ∀ row, (f row).id = row.id) :
    (s.update id f).find j = if j = id then (s.find id).map f else s.find j :=
  Rows.find_update hf

/-- An upload that is not between its two statements leaves. -/
theorem WholeInv.leave (hI : WholeInv s) {c : CallId} {call : Call} {pc : Pc}
    (hc : s.calls c = some call) (hno : ∀ id names reply, call.pc ≠ .secrets id names reply)
    (hpc : pc.target = none) : WholeInv (s.goto c call.args pc) := by
  refine hI.goto ?_ ?_ ?_
  · intro call' hc'
    rw [hc] at hc'
    cases hc'
    exact ⟨rfl, fun id names reply h => absurd h (hno id names reply)⟩
  · rintro id names reply rfl
    cases hpc
  · intro id ht
    rw [hpc] at ht
    cases ht

/-- **An upload rewrites** its script, if it is there. -/
theorem WholeInv.update (hI : WholeInv s) {c : CallId} {call : Call} {pc : Pc} {id : ScriptId}
    {f : Script → Script} (hc : s.calls c = some call) (ht : call.pc.target = some id)
    (hf : ∀ row, (f row).id = row.id ∧ (f row).name = row.name)
    (hpc : pc.target = none ∨
      ∃ names reply, pc = .secrets id names reply ∧ call.args.secrets = some names)
    (hrow : ∀ row, s.find id = some row →
      call.args.source = (f row).source ∧ call.args.columns = (f row).columns ∧
      (pc.target = none → call.args.secrets = (f row).secretsAllowlist))
    (hothers : s.find id ≠ none → ∀ c' call' names reply, s.calls c' = some call' →
      call'.pc = .secrets id names reply → c' = c)
    (hunread : s.find id ≠ none → ¬ s.BetweenReads id) :
    WholeInv ((s.update id f).goto c call.args pc) := by
  obtain ⟨hlt, hname⟩ := hI.target c call id hc ht
  have hown : ∀ j names reply, call.pc = .secrets j names reply → j = id := by
    intro j names reply hj
    rw [hj] at ht
    exact Option.some.inj ht
  cases hfind : s.find id with
  | none =>
      have hsame : s.update id f = s := by
        rw [Sys.update, Rows.update_of_find_eq_none hfind]
      rw [hsame]
      refine hI.goto ?_ ?_ ?_
      · intro call' hc'
        rw [hc] at hc'
        cases hc'
        refine ⟨rfl, fun j names reply hj => ?_⟩
        rw [hown j names reply hj]
        exact hfind
      · intro j names reply hj
        rcases hpc with hnone | ⟨names', reply', hpc, hlist⟩
        · rw [hj] at hnone
          cases hnone
        · rw [hj] at hpc
          cases hpc
          exact ⟨hfind, hlist⟩
      · intro j hj
        rcases hpc with hnone | ⟨names', reply', rfl, hlist⟩
        · rw [hnone] at hj
          cases hj
        · cases hj
          exact ⟨hlt, hname⟩
  | some row =>
      have hthere : s.find id ≠ none := by
        rw [hfind]
        exact Option.some_ne_none row
      obtain ⟨hsource, hcolumns, hlist⟩ := hrow row hfind
      have hrowName : row.name = call.args.name := hname row hfind
      refine hI.write (?_ : Writes s _ c call pc id (f row))
      constructor
      case here => exact hc
      case calls => rfl
      case execs => rfl
      case nodup =>
          show ((Rows.update Script.id id f s.scripts).map Script.id).Nodup
          rw [Rows.map_update fun row => (hf row).1]
          exact hI.nodup
      case next => exact Nat.le_refl _
      case lt => exact hlt
      case find =>
          intro j
          refine (find_update id j fun row => (hf row).1).trans ?_
          rw [hfind, Option.map_some]
      case same => exact (hf row).1.trans (hI.rows id row hfind).1
      case name => exact ⟨(hf row).2.trans hrowName, .inr ⟨row, hfind, (hf row).2.symm⟩⟩
      case source => exact hsource
      case columns => exact hcolumns
      case others => exact hothers hthere
      case own => exact hown
      case unread => exact hunread hthere
      case list => exact hpc.imp_left fun hnone => ⟨hnone, hlist hnone⟩

/-- After the statement that writes the definition. -/
theorem pastWrite_cases (a : UploadArgs) (id : ScriptId) (reply : Reply) :
    (a.pastWrite id reply).target = none ∧ a.secrets = none ∨
      ∃ names, a.pastWrite id reply = .secrets id names reply ∧ a.secrets = some names := by
  unfold UploadArgs.pastWrite
  cases hsecrets : a.secrets with
  | none => exact .inl ⟨rfl, rfl⟩
  | some names => exact .inr ⟨names, rfl, rfl⟩

/-- A new script is what its upload says. -/
theorem WholeInv.insert (hI : WholeInv s) {c : CallId} {call : Call} {pc : Pc}
    (hc : s.calls c = some call) (hno : ∀ id names reply, call.pc ≠ .secrets id names reply)
    (hpc : pc.target = none ∧ call.args.secrets = none ∨
      ∃ names reply, pc = .secrets s.nextScript names reply ∧ call.args.secrets = some names) :
    WholeInv ((s.insert call.args).goto c call.args pc) := by
  have hnew : s.find s.nextScript = none := hI.fresh s.nextScript (Nat.le_refl _)
  refine hI.write (?_ : Writes s _ c call pc s.nextScript
    ⟨s.nextScript, call.args.name, call.args.source, call.args.columns, none⟩)
  constructor
  case here => exact hc
  case calls => rfl
  case execs => rfl
  case nodup =>
      show ((s.scripts ++ [_]).map Script.id).Nodup
      rw [List.map_append, List.nodup_append]
      refine ⟨hI.nodup, List.nodup_singleton _, ?_⟩
      rintro id hid id' hid' rfl
      cases List.mem_singleton.mp hid'
      obtain ⟨row, hrow, heq⟩ := List.mem_map.mp hid
      exact Rows.find_eq_none.mp hnew row hrow heq
  case next => exact Nat.le_succ _
  case lt => exact Nat.lt_succ_self _
  case find =>
      intro j
      refine (Rows.find_append _).trans ?_
      by_cases hj : j = s.nextScript
      · subst hj
        rw [show Rows.find Script.id s.nextScript s.scripts = none from hnew, if_pos rfl]
        simp [Rows.find]
      · rw [if_neg hj]
        have hne : ¬ s.nextScript = j := fun h => hj h.symm
        simp [Rows.find, hne, Sys.find]
  case same => rfl
  case name => exact ⟨rfl, .inl (Nat.le_refl _)⟩
  case source => rfl
  case columns => rfl
  case others =>
      intro c' call' names reply hc' hpc'
      have hlt := (hI.target c' call' s.nextScript hc' (by rw [hpc']; rfl)).1
      exact absurd hlt (Nat.lt_irrefl _)
  case own => exact fun j names reply hj => absurd hj (hno j names reply)
  case unread => exact hI.unread hnew
  case list => exact hpc

/-- An upload that may write its script now writes it, and then its list. -/
theorem WholeInv.define (hI : WholeInv s) {c : CallId} {call : Call} {pc : Pc} {id : ScriptId}
    {f : Script → Script} {out : Outcome} (hc : s.calls c = some call)
    (ht : call.pc.target = some id)
    (hf : ∀ row, (f row).id = row.id ∧ (f row).name = row.name ∧
      (f row).secretsAllowlist = row.secretsAllowlist)
    (hrow : ∀ row, s.find id = some row →
      call.args.source = (f row).source ∧ call.args.columns = (f row).columns)
    (halone : s.Alone call.args id out)
    (hpc : pc.target = none ∧ (call.args.secrets = none ∨ out ≠ .ok) ∨
      ∃ names reply, pc = .secrets id names reply ∧ call.args.secrets = some names) :
    WholeInv ((s.update id f).goto c call.args pc) := by
  have hthere : s.find id ≠ none → ∃ row, s.find id = some row := Option.ne_none_iff_exists'.mp
  refine hI.update hc ht (fun row => ⟨(hf row).1, (hf row).2.1⟩) (hpc.imp_left And.left) ?_ ?_ ?_
  · intro row hfind
    refine ⟨(hrow row hfind).1, (hrow row hfind).2, fun hnone => ?_⟩
    rw [(hf row).2.2]
    rcases (halone row hfind).2.2 with heq | ⟨hsome, hok⟩
    · exact heq
    · -- then the upload goes on to its list
      rcases hpc with ⟨_, hno | hnot⟩ | ⟨names, reply, hpc, _⟩
      · rw [hno] at hsome
        cases hsome
      · exact absurd hok hnot
      · rw [hpc] at hnone
        cases hnone
  · intro hfind c' call' names reply hc' hpc'
    obtain ⟨row, hrow⟩ := hthere hfind
    exact absurd ⟨c', call', names, reply, hc', hpc'⟩ (halone row hrow).1
  · intro hfind
    obtain ⟨row, hrow⟩ := hthere hfind
    exact (halone row hrow).2.1

/-- After an answered write of the definition. -/
theorem pastWrite_ok (a : UploadArgs) (id : ScriptId) (reply : Reply) :
    (a.pastWrite id reply).target = none ∧ (a.secrets = none ∨ Outcome.ok ≠ .ok) ∨
      ∃ names reply', a.pastWrite id reply = .secrets id names reply' ∧
        a.secrets = some names := by
  rcases pastWrite_cases a id reply with ⟨hnone, hno⟩ | ⟨names, hpc, hlist⟩
  · exact .inl ⟨hnone, .inl hno⟩
  · exact .inr ⟨names, reply, hpc, hlist⟩

/-- A lookup by name finds a script of the name. -/
theorem find_of_findScriptByName (hI : WholeInv s) {n : String} {row : Script}
    (h : s.findScriptByName n = some row) : s.find row.id = some row ∧ row.name = n := by
  have hmem := List.mem_of_getLast? h
  rw [List.mem_filter] at hmem
  exact ⟨Rows.find_of_mem hI.nodup hmem.1, of_decide_eq_true hmem.2⟩

/-- The lookup of an upsert. -/
theorem WholeInv.lookup (hI : WholeInv s) {c : CallId} {call : Call} (hc : s.calls c = some call)
    (hno : ∀ id names reply, call.pc ≠ .secrets id names reply) :
    WholeInv (s.goto c call.args (s.nextPc call.args .find)) := by
  cases hfind : s.findScriptByName call.args.name with
  | none =>
      have hnext : s.nextPc call.args .find = .prior := by
        simp only [Sys.nextPc, hfind]
      rw [hnext]
      exact hI.leave hc hno rfl
  | some row =>
      obtain ⟨hrow, hname⟩ := find_of_findScriptByName hI hfind
      have hnext : (s.nextPc call.args .find).target = some row.id ∧
          ∀ id names reply, s.nextPc call.args .find ≠ .secrets id names reply := by
        simp only [Sys.nextPc, hfind]
        split_ifs <;> exact ⟨rfl, fun _ _ _ => Pc.noConfusion⟩
      refine hI.goto ?_ ?_ ?_
      · intro call' hc'
        rw [hc] at hc'
        cases hc'
        exact ⟨rfl, fun id names reply heq => absurd heq (hno id names reply)⟩
      · exact fun id names reply heq => absurd heq (hnext.2 id names reply)
      · intro id ht
        rw [hnext.1] at ht
        cases ht
        refine ⟨?_, fun row' hrow' => ?_⟩
        · by_contra hge
          rw [hI.fresh row.id (Nat.not_lt.mp hge)] at hrow
          cases hrow
        · rw [hrow] at hrow'
          cases hrow'
          exact hname

/-- The second statement of an upload. -/
theorem WholeInv.setSecrets (hI : WholeInv s) {c : CallId} {call : Call} {pc : Pc}
    {id : ScriptId} {names : List String} {reply : Reply} (hc : s.calls c = some call)
    (hpc : call.pc = .secrets id names reply) (hnone : pc.target = none) :
    WholeInv ((s.update id (Script.setSecrets names)).goto c call.args pc) := by
  have ht : call.pc.target = some id := by
    rw [hpc]
    rfl
  obtain ⟨hlist, hrow, hunread⟩ := hI.half c call id names reply hc hpc
  refine hI.update hc ht (fun row => ⟨rfl, rfl⟩) (.inl hnone) ?_ ?_ fun _ => hunread
  · exact fun row hfind => ⟨(hrow row hfind).1, (hrow row hfind).2, fun _ => hlist⟩
  · intro hfind c' call' names' reply' hc' hpc'
    exact hI.one c' c call' call id names' names reply' reply hfind hc' hc hpc' hpc

/-- **One statement of an upload.** -/
theorem WholeInv.stepCall (hI : WholeInv s) {c : CallId} {call : Call} {out : Outcome}
    (hc : s.calls c = some call) (hC : InTurn s (.call c out))
    (h : s.stepCall c call out = some s') : WholeInv s' := by
  have hC := hC call hc
  unfold Sys.stepCall at h
  split_ifs at h with hover
  obtain rfl := Option.some.inj h
  by_cases hsecrets : ∃ id names reply, call.pc = .secrets id names reply
  · obtain ⟨id, names, reply, hpc⟩ := hsecrets
    rw [hpc] at hC ⊢
    cases out with
    | err => exact absurd rfl hC
    | ok => exact hI.setSecrets hc hpc rfl
    | lost => exact hI.setSecrets hc hpc rfl
  have hno : ∀ id names reply, call.pc ≠ .secrets id names reply :=
    fun id names reply heq => hsecrets ⟨id, names, reply, heq⟩
  cases hpc : call.pc with
  | answered reply =>
      rw [hpc] at hover
      exact absurd rfl hover
  | dead =>
      rw [hpc] at hover
      exact absurd rfl hover
  | secrets id names reply => exact absurd hpc (hno id names reply)
  | prior => cases out <;> exact hI.leave hc hno rfl
  | find =>
      cases out with
      | ok => exact hI.lookup hc hno
      | err => exact hI.leave hc hno rfl
      | lost => exact hI.leave hc hno rfl
  | updateMeta id =>
      have ht : call.pc.target = some id := by
        rw [hpc]
        rfl
      rw [hpc] at hC
      have hdefine : ∀ pc, out ≠ .err →
          (pc.target = none ∧ (call.args.secrets = none ∨ out ≠ .ok) ∨
            ∃ names reply, pc = .secrets id names reply ∧ call.args.secrets = some names) →
          WholeInv ((s.update id (Script.updateMeta call.args)).goto c call.args pc) := by
        intro pc hout hlist
        obtain ⟨halone, hsource⟩ := hC hout
        refine hI.define hc ht (fun row => ⟨rfl, rfl, rfl⟩) ?_ halone hlist
        exact fun row hrow => ⟨(hsource row hrow).symm, rfl⟩
      cases out with
      | err => exact hI.leave hc hno rfl
      | ok => exact hdefine _ (by decide) (pastWrite_ok _ _ _)
      | lost => exact hdefine _ (by decide) (.inl ⟨rfl, .inr (by decide)⟩)
  | update id =>
      have ht : call.pc.target = some id := by
        rw [hpc]
        rfl
      rw [hpc] at hC
      have hdefine : ∀ pc, out ≠ .err →
          (pc.target = none ∧ (call.args.secrets = none ∨ out ≠ .ok) ∨
            ∃ names reply, pc = .secrets id names reply ∧ call.args.secrets = some names) →
          WholeInv ((s.update id (Script.update call.args)).goto c call.args pc) := by
        intro pc hout hlist
        exact hI.define hc ht (fun row => ⟨rfl, rfl, rfl⟩) (fun row _ => ⟨rfl, rfl⟩) (hC hout)
          hlist
      cases out with
      | err => exact hI.leave hc hno rfl
      | lost => exact hdefine _ (by decide) (.inl ⟨rfl, .inr (by decide)⟩)
      | ok =>
          show WholeInv ((s.update id (Script.update call.args)).goto c call.args
            (s.nextPc call.args (.update id)))
          cases hfind : s.find id with
          | some row =>
              have hnext : s.nextPc call.args (.update id) =
                  call.args.pastWrite id (.updated id) := by
                rw [Sys.nextPc, if_pos (by rw [hfind]; rfl)]
              rw [hnext]
              exact hdefine _ (by decide) (pastWrite_ok _ _ _)
          | none =>
              have hnext : s.nextPc call.args (.update id) = .answered .internal := by
                rw [Sys.nextPc, if_neg (by rw [hfind]; decide)]
              have hsame : s.update id (Script.update call.args) = s := by
                rw [Sys.update, Rows.update_of_find_eq_none hfind]
              rw [hnext, hsame]
              exact hI.leave hc hno rfl
  | insert prior =>
      rw [hpc] at hC
      cases out with
      | err => exact hI.leave hc hno rfl
      | ok =>
          refine hI.insert hc hno ?_
          rcases pastWrite_cases call.args s.nextScript (.uploaded s.nextScript prior) with
            hnone | ⟨names, hnext, hlist⟩
          · exact .inl hnone
          · exact .inr ⟨names, _, hnext, hlist⟩
      | lost =>
          refine hI.insert hc hno (.inl ⟨rfl, ?_⟩)
          rcases hC (by decide) with hnone | ⟨_, hok⟩
          · exact hnone
          · cases hok

/-! ## The other steps -/

/-- A script is deleted that no execution is between the reads of. -/
theorem WholeInv.deleteScript (hI : WholeInv s) {id : ScriptId} (hno : ¬ s.BetweenReads id) :
    WholeInv { s with scripts := s.scripts.filter fun row => row.id ≠ id } := by
  have hfind : ∀ j row,
      Rows.find Script.id j (s.scripts.filter fun row => row.id ≠ id) = some row →
        s.find j = some row := by
    intro j row hrow
    have hmem := Rows.mem_of_find hrow
    rw [List.mem_filter] at hmem
    have hkey := Rows.key_of_find hrow
    rw [← hkey]
    exact Rows.find_of_mem hI.nodup hmem.1
  have hsub : (s.scripts.filter fun row => row.id ≠ id).Sublist s.scripts :=
    List.filter_sublist
  refine ⟨(hsub.map Script.id).nodup hI.nodup, ?_, ?_, ?_, ?_, ?_, ?_, hI.whole⟩
  · intro j hj
    cases hrow : Rows.find Script.id j (s.scripts.filter fun row => row.id ≠ id) with
    | none => exact hrow
    | some row =>
        have hold := hfind j row hrow
        rw [hI.fresh j hj] at hold
        cases hold
  · exact fun j row hrow => hI.rows j row (hfind j row hrow)
  · intro c call j hc ht
    obtain ⟨hlt, hname⟩ := hI.target c call j hc ht
    exact ⟨hlt, fun row hrow => hname row (hfind j row hrow)⟩
  · intro c call j names reply hc hpc
    obtain ⟨hlist, hrow, hunread⟩ := hI.half c call j names reply hc hpc
    exact ⟨hlist, fun row hrow' => hrow row (hfind j row hrow'), hunread⟩
  · intro c₁ c₂ call₁ call₂ j names₁ names₂ reply₁ reply₂ hthere
    refine hI.one c₁ c₂ call₁ call₂ j names₁ names₂ reply₁ reply₂ ?_
    obtain ⟨row, hrow⟩ := Option.ne_none_iff_exists'.mp hthere
    rw [hfind j row hrow]
    exact Option.some_ne_none row
  · intro e x hx hallow
    obtain ⟨row, hrow, hread⟩ := hI.reads e x hx hallow
    have hne : x.scriptId ≠ id := fun heq => hno ⟨e, x, hx, heq, hallow⟩
    refine ⟨row, ?_, hread⟩
    have hid : row.id = x.scriptId := Rows.key_of_find hrow
    have hmem : row ∈ s.scripts.filter fun row => row.id ≠ id := by
      rw [List.mem_filter]
      exact ⟨Rows.mem_of_find hrow, decide_eq_true (by rw [hid]; exact hne)⟩
    rw [← hid]
    exact Rows.find_of_mem ((hsub.map Script.id).nodup hI.nodup) hmem

/-- An execution changes; if it has not read its list, it has read its script and
no upload of that is between its two statements. -/
theorem WholeInv.execute (hI : WholeInv s) {e : ExecId} {x : Exec}
    (hread : x.allow = none → s.HasRead x ∧ ¬ s.BetweenWrites x.scriptId)
    (hwhole : ∀ allow, x.allow = some allow → s.SawOne x allow) :
    WholeInv { s with execs := Function.update s.execs e (some x) } := by
  refine ⟨hI.nodup, hI.fresh, hI.rows, hI.target, ?_, hI.one, ?_, ?_⟩
  · intro c call id names reply hc hpc
    obtain ⟨hlist, hrow, hunread⟩ := hI.half c call id names reply hc hpc
    refine ⟨hlist, hrow, ?_⟩
    rintro ⟨e', x', hx', hid, hallow⟩
    simp only [Function.update_apply] at hx'
    split_ifs at hx'
    · cases hx'
      rw [← hid] at hpc
      exact (hread hallow).2 ⟨c, call, names, reply, hc, hpc⟩
    · exact hunread ⟨e', x', hx', hid, hallow⟩
  · intro e' x' hx' hallow
    simp only [Function.update_apply] at hx'
    split_ifs at hx'
    · cases hx'
      exact (hread hallow).1
    · exact hI.reads e' x' hx' hallow
  · intro e' x' allow hx' hallow
    simp only [Function.update_apply] at hx'
    split_ifs at hx'
    · cases hx'
      exact hwhole allow hallow
    · exact hI.whole e' x' allow hx' hallow

/-- The list is read, and is that of the upload whose definition was. -/
theorem WholeInv.inject (hI : WholeInv s) {e : ExecId} {x : Exec} (hx : s.execs e = some x)
    (hallow : x.allow = none) :
    s.SawOne x ((s.find x.scriptId).bind Script.secretsAllowlist) := by
  obtain ⟨row, hrow, hname, hsource, hlimits⟩ := hI.reads e x hx hallow
  obtain ⟨_, a, ha, haname, hasource, hacolumns, hlist⟩ := hI.rows x.scriptId row hrow
  refine ⟨a, ha, haname.trans hname.symm, hasource.trans hsource.symm, ?_, ?_⟩
  · rw [hacolumns]
    exact hlimits.symm
  · rw [hrow]
    rcases hlist with hlist | ⟨c, call, names, reply, hc, hpc⟩
    · exact hlist
    · have hunread := (hI.half c call x.scriptId names reply hc hpc).unread
      exact absurd ⟨e, x, hx, rfl, hallow⟩ hunread

/-- **One step** of an upload, a worker or an execution. -/
theorem WholeInv.step {maxSecs : Int} {a : Label} (hI : WholeInv s) (hC : InTurn s a)
    (h : step maxSecs s a = some s') : WholeInv s' := by
  cases a with
  | upload c a =>
      simp only [ScriptUpload.step] at h
      split_ifs at h with hnone
      cases h
      have hbegin : (a.begin maxSecs).target = none ∧
          ∀ id names reply, a.begin maxSecs ≠ .secrets id names reply := by
        unfold UploadArgs.begin
        split_ifs <;> exact ⟨rfl, fun _ _ _ => Pc.noConfusion⟩
      refine hI.goto ?_ ?_ ?_
      · intro call hc
        rw [hc] at hnone
        cases hnone
      · exact fun id names reply heq => absurd heq (hbegin.2 id names reply)
      · intro id ht
        rw [hbegin.1] at ht
        cases ht
  | call c out =>
      obtain ⟨call, hc, hs⟩ := Option.bind_eq_some_iff.mp h
      exact hI.stepCall hc hC hs
  | crash c =>
      obtain ⟨call, hc, rfl⟩ := Option.map_eq_some_iff.mp h
      exact hI.leave hc (hC call hc) rfl
  | deleteScript id =>
      cases h
      exact hI.deleteScript hC
  | claim e id =>
      simp only [ScriptUpload.step] at h
      split_ifs at h
      obtain ⟨row, hrow, rfl⟩ := Option.map_eq_some_iff.mp h
      have hid : row.id = id := Rows.key_of_find hrow
      refine hI.execute (fun _ => ⟨⟨row, ?_, rfl, rfl, rfl⟩, ?_⟩) ?_
      · show s.find row.id = some row
        rw [hid]
        exact hrow
      · show ¬ s.BetweenWrites row.id
        rw [hid]
        exact hC
      · rintro allow ⟨⟩
  | inject e =>
      obtain ⟨x, hx, hs⟩ := Option.bind_eq_some_iff.mp h
      split_ifs at hs with hnone
      cases hs
      refine hI.execute ?_ ?_
      · rintro ⟨⟩
      · rintro allow ⟨⟩
        obtain ⟨a, ha, hsaw⟩ := hI.inject hx (Option.isNone_iff_eq_none.mp hnone)
        exact ⟨a, ha, hsaw⟩

end Steps

/-- A request of an upload is one that was made. -/
theorem upload_of_run {maxSecs : Int} {l : List Label} {s : Sys} {c : CallId} {call : Call}
    (hrun : Machine.run (step maxSecs) (start [] 0) l = some s) (hc : s.calls c = some call) :
    .upload c call.args ∈ l := by
  let Asked (s : Sys) : Prop := ∀ c call, s.calls c = some call → Label.upload c call.args ∈ l
  -- a call that moves keeps its request
  have hgoto : ∀ {t : Sys} {c a pc}, (∀ c call, t.calls c = some call → .upload c call.args ∈ l) →
      Label.upload c a ∈ l → Asked (t.goto c a pc) := by
    intro t c a pc hI ha c' call' hc'
    simp only [Sys.goto, Function.update_apply] at hc'
    split_ifs at hc' with heq
    · cases hc'
      rw [heq]
      exact ha
    · exact hI c' call' hc'
  have hstep : ∀ t a t', Asked t → a ∈ l → step maxSecs t a = some t' → Asked t' := by
    intro t a t' hI ha h
    cases a with
    | upload c a =>
        simp only [step] at h
        split_ifs at h
        cases h
        exact hgoto hI ha
    | call c out =>
        obtain ⟨call, hc, hs⟩ := Option.bind_eq_some_iff.mp h
        have hcalls : (t.written call.args call.pc).calls = t.calls := by
          unfold Sys.written
          split <;> rfl
        unfold Sys.stepCall at hs
        split_ifs at hs
        cases out <;> cases hs
        · exact hgoto (by rw [hcalls]; exact hI) (hI c call hc)
        · exact hgoto hI (hI c call hc)
        · exact hgoto (by rw [hcalls]; exact hI) (hI c call hc)
    | crash c =>
        obtain ⟨call, hc, rfl⟩ := Option.map_eq_some_iff.mp h
        exact hgoto hI (hI c call hc)
    | deleteScript id =>
        cases h
        exact hI
    | claim e id =>
        simp only [step] at h
        split_ifs at h
        obtain ⟨row, _, rfl⟩ := Option.map_eq_some_iff.mp h
        exact hI
    | inject e =>
        obtain ⟨x, _, hs⟩ := Option.bind_eq_some_iff.mp h
        split_ifs at hs
        cases hs
        exact hI
  have hnone : Asked (start [] 0) := by
    rintro c call ⟨⟩
  exact Machine.inv_run hstep hnone (Machine.along_of_forall fun a ha => ha) hrun c call hc

theorem wholeInv_start : WholeInv (start [] 0) := by
  refine ⟨List.nodup_nil, fun _ _ => rfl, ?_, ?_, ?_, ?_, ?_, ?_⟩
  · rintro id row ⟨⟩
  · rintro c call id ⟨⟩
  · rintro c call id names reply ⟨⟩
  · rintro c c' call call' id names names' reply reply' _ ⟨⟩
  · rintro e x ⟨⟩
  · rintro e x allow ⟨⟩

/-- `nightly` with a list of one secret. -/
def nightlyWith (source name : String) : UploadArgs :=
  { nightly with source, secrets := some [name] }

/-- One upload and one execution after the other. -/
def uploadThenRun : List Label :=
  [ .upload 0 (nightlyWith "echo $A" "A"), .call 0 .ok, .call 0 .ok, .call 0 .ok, .call 0 .ok
  , .claim 0 0, .inject 0 ]

/-- A second upload is cut off after the source, and a run is claimed. -/
def uploadCutOff : List Label :=
  [ .upload 0 (nightlyWith "echo $A" "A"), .call 0 .ok, .call 0 .ok, .call 0 .ok, .call 0 .ok
  , .upload 1 (nightlyWith "echo $B" "B"), .call 1 .ok, .call 1 .ok, .crash 1
  , .claim 0 0, .inject 0 ]

end Dokan.Ports.ScriptUpload
