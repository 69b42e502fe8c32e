import Dokan.Ports.Artifacts

/-!
# Where files come from

The bytes in the store, the files below `/input`, the outputs of a row and the answers
of the two tools are all bytes that someone has stored, under their handle.

## Main results

* `Inv.step`, `inv_run` — every step and every run keeps this so.
* `step_tables` — the tables make the steps of `BlobLiveness`.
-/

namespace Dokan.Ports.Artifacts

open Dokan.Verified
open Dokan.Verified.Json
open Dokan.Verified.ContentStore
open Dokan.Ports.Receipt (Bytes Crypto sha256Hex)
open Dokan.Ports.RunTable (RunId Table Row)
open Dokan.Ports.RunScript (mentions validName)
open Dokan.Ports.TableRows
open Dokan.Ports.CaptureOutput (Path entryOf entriesOf objectOf)

/-! ## The invariant -/

section Invariant

variable {W : World}

/-- The run has stored the files. -/
def Wrote (stored : List Stored) (r : RunId) (fs : List (Path × Bytes)) : Prop :=
  ∀ f ∈ fs, ⟨.output r f.1, f.2⟩ ∈ stored

/-- What an attempt has in hand is its run's. -/
def PhaseOk (C : Crypto) (stored : List Stored) (a : Attempt) : Prop :=
  match a.phase with
  | .materialize left => ∀ p ∈ left, p ∈ entriesOf a.job.inputBlobs
  | .capture _ done map => map = mapOf C done ∧ Wrote stored a.run done
  | .exec | .ended => True

/-- The outputs of a run are files it has stored. -/
def OutputOk (C : Crypto) (stored : List Stored) (r : RunId) (v : Value) : Prop :=
  ∃ fs, v = .obj (mapOf C fs) ∧ Wrote stored r fs

/-- An answer is about stored bytes. -/
def Answered (W : World) (stored : List Stored) : Reply → Prop
  | .uploaded data handle size => ∃ o ∈ stored,
      W.decode data = .ok o.bytes ∧ handle = W.handle o.bytes ∧ size = o.bytes.length
  | .downloaded handle data size => ∃ o ∈ stored,
      data = W.encode o.bytes ∧ handle = W.handle o.bytes ∧ size = o.bytes.length
  | .invalidBase64 _ | .invalidBlob _ | .unknownBlobHandle _ => True

/-- A file below `/input` is one an attempt of the run was to write. -/
def Mounted (s : Sys W) (host : Nat) (r : RunId) (name : String) (bytes : Bytes) : Prop :=
  s.HasStored bytes ∧ ∃ k a, s.attempts k = some a ∧ a.host = host ∧ a.run = r ∧
    (name, .str (W.handle bytes)) ∈ entriesOf a.job.inputBlobs

structure Inv (s : Sys W) : Prop where
  within : s.contents.Within s.HasStored
  there : ∀ sha, (s.contents.get? sha).isSome = (s.tables.blobs sha).isSome
  ids : Ids s.tables.table
  claimed : ∀ k a, s.attempts k = some a → Known s.tables.table a.run a.job
  phases : ∀ k a, s.attempts k = some a → PhaseOk W.crypto s.stored a
  input : ∀ host r name bytes, s.input host r name = some bytes → Mounted s host r name bytes
  outputs : ∀ row ∈ s.tables.table.runs, ∀ v, row.run.outputBlobs = some v →
    OutputOk W.crypto s.stored row.id v
  replies : ∀ r ∈ s.replies, Answered W s.stored r

theorem inv_init : Inv (Sys.init : Sys W) := by
  refine ⟨Store.within_empty, fun _ => rfl, ids_empty, ?_, ?_, ?_, ?_, ?_⟩
  · rintro k a ⟨⟩
  · rintro k a ⟨⟩
  · rintro host r name bytes ⟨⟩
  · rintro row ⟨⟩
  · rintro r ⟨⟩

variable {s : Sys W}

/-! ### More is stored -/

section Mono

variable {stored stored' : List Stored} (hsub : ∀ o ∈ stored, o ∈ stored')
include hsub

theorem Wrote.mono {r : RunId} {fs : List (Path × Bytes)} (h : Wrote stored r fs) :
    Wrote stored' r fs := fun f hf => hsub _ (h f hf)

theorem PhaseOk.mono {C : Crypto} {a : Attempt} (h : PhaseOk C stored a) :
    PhaseOk C stored' a := by
  unfold PhaseOk at h ⊢
  cases hphase : a.phase with
  | materialize left => simpa [hphase] using h
  | exec | ended => trivial
  | capture left done map =>
      simp only [hphase] at h
      exact ⟨h.1, h.2.mono hsub⟩

theorem OutputOk.mono {C : Crypto} {r : RunId} {v : Value} (h : OutputOk C stored r v) :
    OutputOk C stored' r v := by
  obtain ⟨fs, hv, hwrote⟩ := h
  exact ⟨fs, hv, hwrote.mono hsub⟩

theorem Answered.mono {r : Reply} (h : Answered W stored r) : Answered W stored' r := by
  cases r with
  | uploaded data handle size | downloaded handle data size =>
      obtain ⟨o, ho, h⟩ := h
      exact ⟨o, hsub o ho, h⟩
  | invalidBase64 e | invalidBlob e | unknownBlobHandle handle => trivial

end Mono

/-! ### What steps are made of -/

/-- Bytes are stored. -/
theorem Inv.put (hI : Inv s) (o : Stored) : Inv (s.put o) := by
  have hsub : ∀ x ∈ s.stored, x ∈ o :: s.stored := fun x hx => List.mem_cons_of_mem o hx
  have hmore : ∀ b, s.HasStored b → (s.put o).HasStored b := by
    rintro b ⟨x, hx, rfl⟩
    exact ⟨x, hsub x hx, rfl⟩
  refine ⟨?_, ?_, hI.ids, hI.claimed, ?_, ?_, ?_, ?_⟩
  · exact (hI.within.mono hmore).put ⟨o, List.mem_cons_self, rfl⟩
  · intro sha
    rw [Sys.put, Store.isSome_get?_put, isSome_putBlob, hI.there]
  · exact fun k a hk => (hI.phases k a hk).mono hsub
  · intro host r name bytes h
    obtain ⟨hstored, hmount⟩ := hI.input host r name bytes h
    exact ⟨hmore bytes hstored, hmount⟩
  · exact fun row hrow v hv => (hI.outputs row hrow v hv).mono hsub
  · exact fun r hr => (hI.replies r hr).mono hsub

/-- An answer is given. -/
theorem Inv.reply (hI : Inv s) {r : Reply} (hr : Answered W s.stored r) : Inv (s.reply r) :=
  ⟨hI.within, hI.there, hI.ids, hI.claimed, hI.phases, hI.input, hI.outputs,
    fun r' hr' => (List.mem_cons.mp hr').elim (fun h => h ▸ hr) (hI.replies r')⟩

/-- Bytes are read. -/
theorem Inv.get (hI : Inv s) (sha : String) : Inv (s.get sha).2 := by
  have htable := getBlob_table s.tables sha
  refine ⟨hI.within, fun x => (hI.there x).trans (isSome_getBlob s.tables sha x).symm, ?_, ?_,
    hI.phases, hI.input, ?_, hI.replies⟩
  · exact htable.symm ▸ hI.ids
  · exact htable.symm ▸ hI.claimed
  · exact htable.symm ▸ hI.outputs

/-- The bytes read are stored ones of the handle. -/
theorem Inv.get_stored (hI : Inv s) {sha : String} {bytes : Bytes}
    (h : s.contents.get? sha = some bytes) : s.HasStored bytes ∧ W.handle bytes = sha :=
  ⟨hI.within sha bytes h, s.contents.sound sha bytes h⟩

/-- An attempt goes on. -/
theorem Inv.setPhase (hI : Inv s) {k : Nat} {a : Attempt} (hk : s.attempts k = some a)
    {phase : Phase} (hphase : PhaseOk W.crypto s.stored { a with phase }) :
    Inv (s.setPhase k a phase) := by
  -- but for its phase, the attempt is the one that was there
  have hold : ∀ k' a', (s.setPhase k a phase).attempts k' = some a' →
      PhaseOk W.crypto s.stored a' ∧
        ∃ b, s.attempts k' = some b ∧ a'.run = b.run ∧ a'.job = b.job := by
    intro k' a' h
    simp only [Sys.setPhase, Function.update_apply] at h
    split_ifs at h with hkk
    · cases h
      exact ⟨hphase, a, hkk ▸ hk, rfl, rfl⟩
    · exact ⟨hI.phases k' a' h, a', h, rfl, rfl⟩
  refine ⟨hI.within, hI.there, hI.ids, ?_, fun k' a' h => (hold k' a' h).1, ?_,
    hI.outputs, hI.replies⟩
  · intro k' a' h
    obtain ⟨-, b, hb, hrun, hblobs⟩ := hold k' a' h
    rw [hrun, hblobs]
    exact hI.claimed k' b hb
  · intro host r name bytes h
    obtain ⟨hstored, k', b, hb, hhost, hrun, hmem⟩ := hI.input host r name bytes h
    refine ⟨hstored, ?_⟩
    by_cases hkk : k' = k
    · subst hkk
      cases hk.symm.trans hb
      exact ⟨k', { a with phase }, Function.update_self _ _ _, hhost, hrun, hmem⟩
    · exact ⟨k', b, (Function.update_of_ne hkk _ _).trans hb, hhost, hrun, hmem⟩

/-- A file is written. -/
theorem Inv.writeInput (hI : Inv s) {k : Nat} {a : Attempt} (hk : s.attempts k = some a)
    {name : String} {bytes : Bytes} (hstored : s.HasStored bytes)
    (hmem : (name, .str (W.handle bytes)) ∈ entriesOf a.job.inputBlobs) :
    Inv (s.writeInput a name bytes) := by
  refine ⟨hI.within, hI.there, hI.ids, hI.claimed, hI.phases, ?_, hI.outputs, hI.replies⟩
  intro host r n b h
  simp only [Sys.writeInput] at h
  split_ifs at h with hhere
  · obtain ⟨rfl, rfl, rfl⟩ := hhere
    cases h
    exact ⟨hstored, k, a, hk, rfl, rfl, hmem⟩
  · exact hI.input host r n b h

/-- A directory is removed. -/
theorem Inv.removeInput (hI : Inv s) (a : Attempt) : Inv (s.removeInput a) := by
  refine ⟨hI.within, hI.there, hI.ids, hI.claimed, hI.phases, ?_, hI.outputs, hI.replies⟩
  intro host r n b h
  simp only [Sys.removeInput] at h
  split_ifs at h
  exact hI.input host r n b h

/-- A statement leaves rows that meet the invariant, and blobs and bytes that agree. -/
theorem Inv.tables (hI : Inv s) {a : BlobLiveness.Label} {t : BlobLiveness.Sys}
    {c : Store W.handle} (hrows : RowsStep (written a) s.tables.table t.table)
    (houtput : ∀ r v, written a = some (.setOutputBlobs r v) → OutputOk W.crypto s.stored r v)
    (hwithin : c.Within s.HasStored) (hthere : ∀ sha, (c.get? sha).isSome = (t.blobs sha).isSome) :
    Inv { s with tables := t, contents := c } := by
  refine ⟨hwithin, hthere, hI.ids.step hrows, fun k b hk => (hI.claimed k b hk).step hrows,
    hI.phases, hI.input, ?_, hI.replies⟩
  intro row' hrow' v hv
  rcases outputs_step hrows hrow' hv with ⟨row, hrow, hid, hold⟩ | hwrites
  · exact hid ▸ hI.outputs row hrow v hold
  · exact houtput row'.id v hwrites

/-- The map of a capture is recorded. -/
theorem Inv.recordOutput (hI : Inv s) {r : RunId} {fs : List (Path × Bytes)}
    (hwrote : Wrote s.stored r fs) : Inv (s.recordOutput r (mapOf W.crypto fs)) := by
  unfold Sys.recordOutput objectOf
  split_ifs
  · exact hI
  · refine hI.tables (a := .table (.write (.setOutputBlobs r (.obj (mapOf W.crypto fs)))))
      (.write _) ?_ hI.within hI.there
    rintro r' v h
    cases h
    exact ⟨fs, rfl, hwrote⟩

/-- A run is claimed. -/
theorem Inv.claim (hI : Inv s) {k : Nat} {a : Attempt} (hk : s.attempts k = none)
    (hjob : Known s.tables.table a.run a.job) (hphase : PhaseOk W.crypto s.stored a) :
    Inv { s with attempts := Function.update s.attempts k (some a) } := by
  have hold : ∀ k' b, Function.update s.attempts k (some a) k' = some b →
      b = a ∨ s.attempts k' = some b := by
    intro k' b h
    rw [Function.update_apply] at h
    split_ifs at h
    · exact .inl (Option.some.inj h).symm
    · exact .inr h
  refine ⟨hI.within, hI.there, hI.ids, ?_, ?_, ?_, hI.outputs, hI.replies⟩
  · intro k' b h
    rcases hold k' b h with rfl | h
    · exact hjob
    · exact hI.claimed k' b h
  · intro k' b h
    rcases hold k' b h with rfl | h
    · exact hphase
    · exact hI.phases k' b h
  · intro host r name bytes h
    obtain ⟨hstored, k', b, hb, hmount⟩ := hI.input host r name bytes h
    refine ⟨hstored, k', b, ?_, hmount⟩
    have hne : k' ≠ k := by
      rintro rfl
      cases hk.symm.trans hb
    exact (Function.update_of_ne hne _ _).trans hb

/-! ### Steps -/

theorem Inv.uploadBlob (hI : Inv s) (data : String) : Inv (s.uploadBlob data) := by
  unfold Sys.uploadBlob
  cases hdecode : W.decode data with
  | error e => exact hI.reply trivial
  | ok bytes =>
      cases hvalid : validateBlobBytes bytes.length with
      | error e =>
          simp only [hvalid]
          exact hI.reply trivial
      | ok u =>
          simp only [hvalid]
          refine (hI.put ⟨.upload, bytes⟩).reply ?_
          exact ⟨⟨.upload, bytes⟩, List.mem_cons_self, hdecode, rfl, rfl⟩

theorem Inv.downloadBlob (hI : Inv s) (handle : String) : Inv (s.downloadBlob handle) := by
  unfold Sys.downloadBlob
  have hget := hI.get handle
  cases hfound : s.contents.get? handle with
  | none =>
      simp only [Sys.get, hfound] at hget ⊢
      exact hget.reply trivial
  | some bytes =>
      obtain ⟨⟨o, ho, rfl⟩, hhandle⟩ := hI.get_stored hfound
      simp only [Sys.get, hfound] at hget ⊢
      exact hget.reply ⟨o, ho, rfl, hhandle.symm, rfl⟩

theorem Inv.materialize (hI : Inv s) {k : Nat} {a : Attempt} (hk : s.attempts k = some a)
    {left : List (String × Value)} (hphase : a.phase = .materialize left) :
    Inv (s.materialize k a left) := by
  have hleft : ∀ p ∈ left, p ∈ entriesOf a.job.inputBlobs := by
    have hok := hI.phases k a hk
    rwa [PhaseOk, hphase] at hok
  unfold Sys.materialize
  cases left with
  | nil => exact hI.setPhase hk trivial
  | cons p left =>
      obtain ⟨name, shaV⟩ := p
      obtain ⟨hhere, hrest⟩ := List.forall_mem_cons.mp hleft
      simp only
      split_ifs
      · exact hI.setPhase hk trivial
      · cases hsha : shaV.asStr? with
        | none => exact hI.setPhase hk trivial
        | some sha =>
            obtain rfl := Value.asStr?_eq_some.mp hsha
            have hget := hI.get sha
            cases hfound : s.contents.get? sha with
            | none =>
                simp only [Sys.get, hfound] at hget ⊢
                exact hget.setPhase hk trivial
            | some bytes =>
                obtain ⟨hstored, rfl⟩ := hI.get_stored hfound
                simp only [Sys.get, hfound] at hget ⊢
                exact (hget.writeInput hk hstored hhere).setPhase hk hrest

theorem Inv.capture (hI : Inv s) {k : Nat} {a : Attempt} (hk : s.attempts k = some a)
    {left done : List (Path × Bytes)} {map : List (String × Value)}
    (hphase : a.phase = .capture left done map) : Inv (s.capture k a done map left) := by
  obtain ⟨rfl, hwrote⟩ : map = mapOf W.crypto done ∧ Wrote s.stored a.run done := by
    have hok := hI.phases k a hk
    rwa [PhaseOk, hphase] at hok
  unfold Sys.capture
  cases left with
  | nil =>
      have hrecord := hI.recordOutput hwrote
      have hkeep : (s.recordOutput a.run (mapOf W.crypto done)).attempts = s.attempts := by
        unfold Sys.recordOutput
        split <;> rfl
      exact hrecord.setPhase (hkeep ▸ hk) trivial
  | cons f left =>
      refine (hI.put ⟨.output a.run f.1, f.2⟩).setPhase hk ⟨?_, ?_⟩
      · exact (mapOf_concat W.crypto done f).symm
      · intro g hg
        rcases List.mem_append.mp hg with hg | hg
        · exact List.mem_cons_of_mem _ (hwrote g hg)
        · rw [List.mem_singleton.mp hg]
          exact List.mem_cons_self

/-- **One step** keeps the invariant. -/
theorem Inv.step {s' : Sys W} {l : Label} (hI : Inv s) (h : step s l = some s') : Inv s' := by
  cases l with
  | tables a =>
      obtain ⟨hothers, h⟩ := Option.ite_none_right_eq_some.mp h
      obtain ⟨t, ht, rfl⟩ := Option.map_eq_some_iff.mp h
      refine hI.tables (rows_step ht) ?_ (hI.within.sweep _) fun sha => ?_
      · intro r v hw
        obtain rfl := eq_of_written hw
        cases hothers
      · rw [Store.isSome_get?_sweep, blobs_step ht hothers, hI.there]
        split_ifs with hgone
        · simp [hgone]
        · simp [hgone]
  | uploadBlob data =>
      cases h
      exact hI.uploadBlob data
  | downloadBlob handle =>
      cases h
      exact hI.downloadBlob handle
  | claim k host r =>
      obtain ⟨hfree, h⟩ := Option.ite_none_right_eq_some.mp h
      obtain ⟨row, hrow, h⟩ := Option.bind_eq_some_iff.mp h
      obtain ⟨t, ht, rfl⟩ := Option.map_eq_some_iff.mp h
      have hmem := List.mem_of_find?_eq_some hrow
      obtain ⟨rfl, -⟩ : row.id = r ∧ row.run.status = .pending := by
        simpa using List.find?_some hrow
      -- first the claim is written, then the attempt begins
      have hnow := hI.claim (k := k)
        (a :=
          { host, run := row.id
            job := row.run.toNewRun
            phase := .materialize (entriesOf row.run.inputBlobs) })
        (Option.isNone_iff_eq_none.mp hfree) (hI.ids.known hmem) fun p hp => hp
      refine hnow.tables (rows_step ht) ?_ hnow.within ?_
      · rintro r v ha
        cases ha
      · intro sha
        rw [blobs_step ht rfl]
        exact hI.there sha
  | materialize k =>
      obtain ⟨a, hk, h⟩ := Option.bind_eq_some_iff.mp h
      cases hphase : a.phase with
      | materialize left =>
          rw [hphase] at h
          cases h
          exact hI.materialize hk hphase
      | exec | capture left done map | ended =>
          rw [hphase] at h
          cases h
  | exit k files =>
      obtain ⟨a, hk, h⟩ := Option.bind_eq_some_iff.mp h
      cases hphase : a.phase with
      | exec =>
          rw [hphase] at h
          cases h
          refine hI.setPhase hk ?_
          split_ifs
          · exact ⟨rfl, fun f hf => nomatch hf⟩
          · trivial
      | materialize left | capture left done map | ended =>
          rw [hphase] at h
          cases h
  | capture k =>
      obtain ⟨a, hk, h⟩ := Option.bind_eq_some_iff.mp h
      cases hphase : a.phase with
      | capture left done map =>
          rw [hphase] at h
          cases h
          exact hI.capture hk hphase
      | materialize left | exec | ended =>
          rw [hphase] at h
          cases h
  | stop k =>
      obtain ⟨a, hk, rfl⟩ := Option.map_eq_some_iff.mp h
      exact hI.setPhase hk trivial
  | removeInput k =>
      obtain ⟨a, hk, h⟩ := Option.bind_eq_some_iff.mp h
      cases hphase : a.phase with
      | ended =>
          rw [hphase] at h
          cases h
          exact hI.removeInput a
      | materialize left | exec | capture left done map =>
          rw [hphase] at h
          cases h

/-- **The tables** make the steps of `BlobLiveness`; a sweep is one of others. -/
theorem step_tables {s' : Sys W} {l : Label} (h : step s l = some s') :
    s'.tables = s.tables ∨ ∃ b, BlobLiveness.step s.tables b = some s'.tables ∧
      (l = .tables b ∨ ∀ age, b ≠ .gcBlobs age) := by
  have hget : ∀ sha, ∃ b, BlobLiveness.step s.tables b = some (s.get sha).2.tables ∧
      (l = .tables b ∨ ∀ age, b ≠ .gcBlobs age) := by
    intro sha
    refine ⟨.getBlob sha, rfl, .inr fun age => ?_⟩
    rintro ⟨⟩
  have hput : ∀ o, ∃ b, BlobLiveness.step s.tables b = some (s.put o).tables ∧
      (l = .tables b ∨ ∀ age, b ≠ .gcBlobs age) := by
    intro o
    refine ⟨.putBlob (W.handle o.bytes), rfl, .inr fun age => ?_⟩
    rintro ⟨⟩
  cases l with
  | tables a =>
      obtain ⟨-, h⟩ := Option.ite_none_right_eq_some.mp h
      obtain ⟨t, ht, rfl⟩ := Option.map_eq_some_iff.mp h
      exact .inr ⟨a, ht, .inl rfl⟩
  | uploadBlob data =>
      cases h
      unfold Sys.uploadBlob
      split
      · exact .inl rfl
      · split
        · exact .inl rfl
        · exact .inr (hput _)
  | downloadBlob handle =>
      cases h
      right
      unfold Sys.downloadBlob
      cases hfound : s.contents.get? handle with
      | none | some bytes =>
          simp only [Sys.get, hfound]
          exact hget handle
  | claim k host r =>
      obtain ⟨-, h⟩ := Option.ite_none_right_eq_some.mp h
      obtain ⟨row, -, h⟩ := Option.bind_eq_some_iff.mp h
      obtain ⟨t, ht, rfl⟩ := Option.map_eq_some_iff.mp h
      refine .inr ⟨_, ht, .inr fun age => ?_⟩
      rintro ⟨⟩
  | materialize k =>
      obtain ⟨a, -, h⟩ := Option.bind_eq_some_iff.mp h
      split at h
      · cases h
        unfold Sys.materialize
        split
        · exact .inl rfl
        · split
          · exact .inl rfl
          · split
            · exact .inl rfl
            · next sha _ =>
                right
                cases hfound : s.contents.get? sha with
                | none | some bytes =>
                    rw [Sys.get, hfound]
                    exact hget sha
      · cases h
  | exit k files =>
      obtain ⟨a, -, h⟩ := Option.bind_eq_some_iff.mp h
      split at h
      · cases h
        exact .inl rfl
      · cases h
  | capture k =>
      obtain ⟨a, -, h⟩ := Option.bind_eq_some_iff.mp h
      split at h
      · cases h
        unfold Sys.capture
        split
        · unfold Sys.recordOutput
          split
          · exact .inl rfl
          · next v _ =>
              refine .inr ⟨.table (.write (.setOutputBlobs a.run v)), rfl, .inr fun age => ?_⟩
              rintro ⟨⟩
        · exact .inr (hput _)
      · cases h
  | stop k =>
      obtain ⟨a, -, rfl⟩ := Option.map_eq_some_iff.mp h
      exact .inl rfl
  | removeInput k =>
      obtain ⟨a, -, h⟩ := Option.bind_eq_some_iff.mp h
      split at h
      · cases h
        exact .inl rfl
      · cases h

/-- **Every run** keeps the invariant. -/
theorem inv_run {l : List Label} (h : Machine.run step Sys.init l = some s) : Inv s :=
  Machine.inv_run (C := fun _ _ => True) (fun _ _ _ hI _ h => hI.step h) inv_init
    (Machine.along_of_forall fun _ _ => trivial) h

end Invariant

end Dokan.Ports.Artifacts
