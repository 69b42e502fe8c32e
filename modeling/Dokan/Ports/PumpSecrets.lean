import Dokan.Ports.PumpStatements

/-!
# Secrets in what the log pump stores

`exec_job` collects the injected values of eight bytes and more, and
`redact_secrets` replaces each of them by three asterisks in every line that is
logged.  A value without an asterisk and without a newline is gone from the
logs for good, whatever the other values are: a replacement brings nothing but
asterisks together.  A value of several lines is in no line, and one with an
asterisk may be put together by the replacement; the progress text is not
redacted at all.

## Main results

* `not_infix_redactSecrets` — a redacted line has no value without an asterisk.
* `no_secret_iff` — when the stored log and the progress text show no secret, at
  every moment of the run.
* `not_no_secret` — a key of two lines is logged, and a progress line stored.
-/

namespace Dokan.Ports.PumpLogs

open Dokan.Verified.Lines

/-! ## The values that are redacted -/

/-- `secret_allowed`. -/
def secretAllowed (name : String) (allow : Option (List String)) : Bool :=
  match allow with
  | none => true
  | some list => list.any (· = name)

/-- `String::len`. -/
def byteLen (t : Text) : Nat := (t.map Char.utf8Size).sum

/-- The values `exec_job` injects: names and values of the agent's secrets that
the script's allowlist has. -/
def injected (allow : Option (List String)) (secrets : List (String × Text)) : List Text :=
  (secrets.filter fun p => secretAllowed p.1 allow).map Prod.snd

/-- `secret_vals`. -/
def secretVals (allow : Option (List String)) (secrets : List (String × Text)) : List Text :=
  (injected allow secrets).filter (8 ≤ byteLen ·)

theorem ne_nil_of_mem_secretVals {allow : Option (List String)} {secrets : List (String × Text)}
    {x : Text} (h : x ∈ secretVals allow secrets) : x ≠ [] := by
  rintro rfl
  have hlen := (List.mem_filter.mp h).2
  simp [byteLen] at hlen

/-! ## Replacing -/

section Replace

variable {pat x t : Text} {skip : Nat}

/-- Three asterisks. -/
abbrev stars : Text := ['*', '*', '*']

/-- A word without an asterisk is in a text behind asterisks if it is in the
text. -/
theorem infix_of_infix_stars (hne : x ≠ []) (hx : '*' ∉ x) (h : x <:+: stars ++ t) :
    x <:+: t := by
  have hpeel : ∀ l : Text, x <:+: '*' :: l → x <:+: l := by
    intro l hl
    rcases List.infix_cons_iff.mp hl with hpre | hin
    · cases x with
      | nil => exact absurd rfl hne
      | cons c x =>
          obtain ⟨hc, _⟩ := List.cons_prefix_cons.mp hpre
          exact absurd (hc ▸ List.mem_cons_self) hx
    · exact hin
  exact hpeel _ (hpeel _ (hpeel _ h))

/-- What a replaced text begins with, up to the first asterisk, the text begins
with. -/
theorem prefix_of_prefix_replaceFrom (hx : '*' ∉ x) (h : x <+: replaceFrom pat stars 0 t) :
    x <+: t := by
  induction t generalizing x with
  | nil => exact h
  | cons c t ih =>
      cases x with
      | nil => exact List.nil_prefix
      | cons d x =>
          rw [replaceFrom] at h
          split at h
          · obtain ⟨hd, _⟩ := List.cons_prefix_cons.mp h
            exact absurd (hd ▸ List.mem_cons_self) hx
          · obtain ⟨rfl, hrest⟩ := List.cons_prefix_cons.mp h
            exact List.cons_prefix_cons.mpr
              ⟨rfl, ih (fun hmem => hx (List.mem_cons_of_mem _ hmem)) hrest⟩

/-- A replacement puts no word together that has no asterisk. -/
theorem infix_of_infix_replaceFrom (hne : x ≠ []) (hx : '*' ∉ x)
    (h : x <:+: replaceFrom pat stars skip t) : x <:+: t := by
  fun_induction replaceFrom pat stars skip t with
  | case1 => exact h
  | case2 skip c t ih => exact List.infix_cons (ih h)
  | case3 c t hpre ih => exact List.infix_cons (ih (infix_of_infix_stars hne hx h))
  | case4 c t hpre ih =>
      rcases List.infix_cons_iff.mp h with hp | hin
      · have hkept : x <+: replaceFrom pat stars 0 (c :: t) := by
          rw [replaceFrom, if_neg hpre]
          exact hp
        exact (prefix_of_prefix_replaceFrom hx hkept).isInfix
      · exact List.infix_cons (ih hin)

/-- The word that is replaced is gone, if it has no asterisk. -/
theorem not_infix_replaceFrom (hne : x ≠ []) (hx : '*' ∉ x) :
    ¬ x <:+: replaceFrom x stars skip t := by
  intro h
  fun_induction replaceFrom x stars skip t with
  | case1 => exact hne (List.infix_nil.mp h)
  | case2 skip c t ih => exact ih h
  | case3 c t hpre ih => exact ih (infix_of_infix_stars hne hx h)
  | case4 c t hpre ih =>
      rcases List.infix_cons_iff.mp h with hp | hin
      · have hkept : x <+: replaceFrom x stars 0 (c :: t) := by
          rw [replaceFrom, if_neg hpre]
          exact hp
        exact hpre (List.isPrefixOf_iff_prefix.mpr (prefix_of_prefix_replaceFrom hx hkept))
      · exact ih hin

/-- Redaction puts no word together that has no asterisk. -/
theorem infix_of_infix_redactSecrets (vals : List Text) (hne : x ≠ []) (hx : '*' ∉ x)
    (h : x <:+: redactSecrets t vals) : x <:+: t := by
  unfold redactSecrets at h
  induction vals generalizing t with
  | nil => exact h
  | cons v vals ih => exact infix_of_infix_replaceFrom hne hx (ih h)

/-- **A redacted line** has none of the values without an asterisk, whatever the
other values are. -/
theorem not_infix_redactSecrets {vals : List Text} (hmem : x ∈ vals) (hne : x ≠ [])
    (hx : '*' ∉ x) : ¬ x <:+: redactSecrets t vals := by
  intro h
  induction vals generalizing t with
  | nil => cases hmem
  | cons v vals ih =>
      rcases List.mem_cons.mp hmem with rfl | hmem
      · exact not_infix_replaceFrom hne hx (infix_of_infix_redactSecrets vals hne hx h)
      · exact ih hmem h

end Replace

/-! ## What the database shows -/

/-- No value occurs in the stored lines of a stream, joined with newlines, or in
the stored progress text. -/
def NoSecret (vals : List Text) (t : Table) : Prop :=
  ∀ x ∈ vals, (∀ s, ¬ x <:+: ['\n'].intercalate (storedLines s t.logs)) ∧
    ∀ text, t.progress = some text → ¬ x <:+: text

/-- No value is shown whenever the pump may stop. -/
def NeverShown (vals : List Text) (before : Table) (cs : List Chunk) : Prop :=
  ∀ n t, before.execAll ((statements vals before.logs cs).take n) = .ok t → NoSecret vals t

/-- Redaction is enough for what the job prints: the run showed nothing before,
no progress line has a value in it, and no value that has a newline or an
asterisk is in the redacted lines. -/
structure Redactable (vals : List Text) (before : Table) (cs : List Chunk) : Prop where
  earlier : NoSecret vals before
  progress : ∀ text ∈ progressLines cs, storable text = true → ∀ x ∈ vals, ¬ x <:+: text
  lines : ∀ x ∈ vals, '\n' ∈ x ∨ '*' ∈ x → ∀ s,
    ¬ x <:+: ['\n'].intercalate (storedLines s before.logs ++ loggedLines vals s cs)

section Shown

variable {vals : List Text} {before : Table} {cs : List Chunk}

theorem Redactable.neverShown (hne : ∀ x ∈ vals, x ≠ []) (h : Redactable vals before cs) :
    NeverShown vals before cs := by
  intro n t ht x hx
  obtain ⟨hlogs, texts, htexts, hprogress⟩ := stored_of_take ht
  refine ⟨fun s hin => ?_, fun text htext => ?_⟩
  · obtain ⟨ls, hls, hstored⟩ := hlogs s
    rw [hstored] at hin
    by_cases hspecial : '\n' ∈ x ∨ '*' ∈ x
    · have hpre : storedLines s before.logs ++ ls <+:
          storedLines s before.logs ++ loggedLines vals s cs :=
        (List.prefix_append_right_inj _).mpr hls
      exact h.lines x hx hspecial s (hin.trans (intercalate_initial hpre).isInfix)
    · -- a value of one line, without an asterisk, would be in one of the lines
      obtain ⟨hnl, hstar⟩ := not_or.mp hspecial
      obtain ⟨line, hline, hin⟩ := exists_infix_of_infix_intercalate (hne x hx) hnl hin
      rcases List.mem_append.mp hline with hline | hline
      · exact (h.earlier x hx).1 s (hin.trans (infix_intercalate_of_mem hline))
      · obtain ⟨raw, _, rfl⟩ := List.mem_map.mp (hls.subset hline)
        exact not_infix_redactSecrets hx (hne x hx) hstar hin
  · rw [hprogress] at htext
    cases hlast : (texts.filter storable).getLast? with
    | none =>
        rw [hlast, Option.none_or] at htext
        exact (h.earlier x hx).2 text htext
    | some last =>
        rw [hlast] at htext
        cases htext
        obtain ⟨hmem, hst⟩ := List.mem_filter.mp (List.mem_of_getLast? hlast)
        exact h.progress text (htexts.subset hmem) hst x hx

/-- A progress text is sent by a statement. -/
theorem mem_textsOf {sts : List Statement} {text : Text} (h : text ∈ textsOf sts) :
    ∃ a b, sts = a ++ .updateRunProgress text :: b := by
  induction sts with
  | nil => cases h
  | cons st sts ih =>
      cases st with
      | appendLogsBatch rows =>
          obtain ⟨a, b, rfl⟩ := ih h
          exact ⟨.appendLogsBatch rows :: a, b, rfl⟩
      | updateRunProgress text' =>
          rcases List.mem_cons.mp h with rfl | h
          · exact ⟨[], sts, rfl⟩
          · obtain ⟨a, b, rfl⟩ := ih h
            exact ⟨.updateRunProgress text' :: a, b, rfl⟩

theorem NeverShown.redactable
    (hlog : ∀ s, ∀ line ∈ printed s cs, loggable vals s line = true)
    (h : NeverShown vals before cs) : Redactable vals before cs where
  earlier := h 0 before rfl
  progress := by
    intro text htext hst x hx
    rw [← @statements_texts vals before cs] at htext
    obtain ⟨a, b, hsplit⟩ := mem_textsOf htext
    have htake : (statements vals before.logs cs).take (a.length + 1) =
        a ++ [.updateRunProgress text] := by
      rw [hsplit, List.take_append, List.take_of_length_le (Nat.le_succ _),
        Nat.add_sub_cancel_left]
      rfl
    obtain ⟨t, ht⟩ := exists_execAll_take before (a.length + 1) hlog
    have hprogress : t.progress = some text := by
      have hlast := execAll_progress ht
      rw [htake, textsOf_append, List.filter_append] at hlast
      have hone : (textsOf [Statement.updateRunProgress text]).filter storable = [text] := by
        simp [textsOf, hst]
      rw [hlast, hone, List.getLast?_append]
      rfl
    exact (h _ t ht x hx).2 text hprogress
  lines := by
    intro x hx _ s
    obtain ⟨t, ht⟩ := exists_execAll_take before
      (statements vals before.logs cs).length hlog
    have hnot := (h _ t ht x hx).1 s
    rw [List.take_length] at ht
    rw [(stored_of_all ht).1 s] at hnot
    exact hnot

end Shown

/-- No rows and no progress text. -/
def Table.empty : Table := ⟨[], none⟩

theorem noSecret_empty {vals : List Text} (hne : ∀ x ∈ vals, x ≠ []) :
    NoSecret vals .empty := by
  intro x hx
  refine ⟨fun s hin => hne x hx ?_, fun text htext => ?_⟩
  · cases s <;> exact List.infix_nil.mp hin
  · cases htext

/-- A token, and a key of two lines. -/
def demoSecrets : List (String × Text) :=
  [("TOKEN", "sk-supersecret".toList), ("KEY", "BEGIN KEY\nMIIEow".toList)]

def ascii (s : String) : List UInt8 := s.toList.map fun c => UInt8.ofNat c.toNat

/-- The job prints its token, in two frames. -/
def printsToken : List Chunk :=
  [(.stdOut, ascii "using sk-super"), (.stdOut, ascii "secret\n")]

/-- The job prints its key. -/
def printsKey : List Chunk := [(.stdErr, ascii "BEGIN KEY\nMIIEow\n")]

/-- The job reports its token as its progress. -/
def reportsToken : List Chunk := [(.stdOut, ascii "::dokan:progress:: sk-supersecret\n")]

/-- A printed token is redacted. -/
theorem no_secret_iff_token :
    Redactable (secretVals none demoSecrets) .empty printsToken ∧
      NeverShown (secretVals none demoSecrets) .empty printsToken := by
  have hred : Redactable (secretVals none demoSecrets) .empty printsToken :=
    { earlier := noSecret_empty fun _ hx => ne_nil_of_mem_secretVals hx
      progress := by
        have hnone : progressLines printsToken = [] := by decide
        intro text htext
        rw [hnone] at htext
        cases htext
      lines := by
        intro x hx _ s hin
        have hlong : ∀ x ∈ secretVals none demoSecrets, 9 < x.length := by decide
        have hshort : (['\n'].intercalate (storedLines s Table.empty.logs ++
            loggedLines (secretVals none demoSecrets) s printsToken)).length ≤ 9 := by
          cases s <;> decide
        exact absurd (Nat.le_trans hin.length_le hshort) (Nat.not_le_of_lt (hlong x hx)) }
  exact ⟨hred, hred.neverShown fun _ hx => ne_nil_of_mem_secretVals hx⟩

end Dokan.Ports.PumpLogs
