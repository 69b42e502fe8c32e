import Dokan.Ports.ArtifactInv

/-!
# Pipelines of files

What a run leaves in `/output` is spared by the sweeps as soon as its row says so;
until then only `last_used_at` keeps it.  What is written below `/input` stays there
until a directory is removed, and two attempts of one run on one host share theirs.

Results that tell contents by their handles ask that no two byte strings that were
stored have one SHA-256.

## Main results

* `inputs_exact` — a job sees the files its run mounts, with their handles, and no
  others.
* `outputs_kept` — what a run left in `/output` can be had while its row is there.
* `pipeline` — what a run reads of another is what the other wrote.
* `uploads_come_back` — a download gives what was uploaded.
-/

namespace Dokan.Ports.Artifacts

open Dokan.Verified
open Dokan.Verified.Json
open Dokan.Verified.ContentStore
open Dokan.Ports.Receipt (Bytes Crypto sha256Hex utf8 base64 demoHash)
open Dokan.Ports.RunTable (RunId Table Row)
open Dokan.Ports.RunScript (mentions)
open Dokan.Ports.TableRows
open Dokan.Ports.CaptureOutput (Path entryOf entriesOf objectOf rel)

variable {W : World} {s s' : Sys W}

/-! ## Directories -/

/-- The file is there for the attempt, or is still to be written, or there is no job
that could read it. -/
def Sys.Shows (s : Sys W) (a : Attempt) (p : String × Value) : Prop :=
  (∃ left, a.phase = .materialize left ∧ p ∈ left) ∨ a.phase = .ended ∨
    (s.input a.host a.run p.1).isSome = true

/-- The attempts of a run have one map, and find its files. -/
structure Ready (s : Sys W) : Prop where
  agree : ∀ k k' a a', s.attempts k = some a → s.attempts k' = some a' → a.run = a'.run →
    a.job = a'.job
  shows : ∀ k a, s.attempts k = some a → ∀ p ∈ entriesOf a.job.inputBlobs, s.Shows a p

/-- Nobody removes a directory that an attempt still has. -/
def Undisturbed (s : Sys W) : Label → Prop
  | .removeInput k => ∀ a, s.attempts k = some a → ∀ k' a', s.attempts k' = some a' →
      a'.host = a.host → a'.run = a.run → a'.phase = .ended
  | _ => True

/-- Neither attempts nor directories change. -/
theorem Ready.same (hR : Ready s) (hattempts : s'.attempts = s.attempts)
    (hinput : s'.input = s.input) : Ready s' := by
  refine ⟨by simpa only [hattempts] using hR.agree, ?_⟩
  intro k a hk p hp
  rw [hattempts] at hk
  have hshows := hR.shows k a hk p hp
  rwa [Sys.Shows, ← hinput] at hshows

theorem Ready.setPhase (hR : Ready s) {k : Nat} {a : Attempt} (hk : s.attempts k = some a)
    {phase : Phase} (hphase : ∀ p ∈ entriesOf a.job.inputBlobs, s.Shows { a with phase } p) :
    Ready (s.setPhase k a phase) := by
  -- an attempt has the run and the map it had
  have hold : ∀ k' a', (s.setPhase k a phase).attempts k' = some a' →
      ∃ b, s.attempts k' = some b ∧ a'.run = b.run ∧ a'.job = b.job := by
    intro k' a' h
    simp only [Sys.setPhase, Function.update_apply] at h
    split_ifs at h with hkk
    · cases h
      exact ⟨a, hkk ▸ hk, rfl, rfl⟩
    · exact ⟨a', h, rfl, rfl⟩
  constructor
  · intro k₁ k₂ a₁ a₂ h₁ h₂ hrun
    obtain ⟨b₁, hb₁, hr₁, hm₁⟩ := hold k₁ a₁ h₁
    obtain ⟨b₂, hb₂, hr₂, hm₂⟩ := hold k₂ a₂ h₂
    rw [hm₁, hm₂]
    exact hR.agree k₁ k₂ b₁ b₂ hb₁ hb₂ (by rw [← hr₁, ← hr₂, hrun])
  · intro k' a' h p hp
    simp only [Sys.setPhase, Function.update_apply] at h
    split_ifs at h with hkk
    · cases h
      exact hphase p hp
    · exact hR.shows k' a' h p hp

theorem Ready.writeInput (hR : Ready s) (a : Attempt) (name : String) (bytes : Bytes) :
    Ready (s.writeInput a name bytes) := by
  refine ⟨hR.agree, ?_⟩
  intro k b hk p hp
  rcases hR.shows k b hk p hp with hleft | hended | hthere
  · exact .inl hleft
  · exact .inr (.inl hended)
  · refine .inr (.inr ?_)
    simp only [Sys.writeInput]
    split_ifs
    · rfl
    · exact hthere

theorem Ready.removeInput (hR : Ready s) {a : Attempt}
    (hended : ∀ k b, s.attempts k = some b → b.host = a.host → b.run = a.run → b.phase = .ended) :
    Ready (s.removeInput a) := by
  refine ⟨hR.agree, ?_⟩
  intro k b hk p hp
  by_cases hhere : b.host = a.host ∧ b.run = a.run
  · exact .inr (.inl (hended k b hk hhere.1 hhere.2))
  · have hshows := hR.shows k b hk p hp
    rw [Sys.Shows] at hshows ⊢
    simpa only [Sys.removeInput, if_neg hhere] using hshows

theorem Ready.claim (hR : Ready s) {k : Nat} {a : Attempt}
    (hphase : a.phase = .materialize (entriesOf a.job.inputBlobs))
    (hagree : ∀ k' b, s.attempts k' = some b → b.run = a.run → b.job = a.job) :
    Ready { s with attempts := Function.update s.attempts k (some a) } := by
  have hold : ∀ k' b, Function.update s.attempts k (some a) k' = some b →
      b = a ∨ s.attempts k' = some b := by
    intro k' b h
    rw [Function.update_apply] at h
    split_ifs at h
    · exact .inl (Option.some.inj h).symm
    · exact .inr h
  constructor
  · intro k₁ k₂ a₁ a₂ h₁ h₂ hrun
    rcases hold k₁ a₁ h₁ with hnew₁ | hb₁
    · rcases hold k₂ a₂ h₂ with hnew₂ | hb₂
      · rw [hnew₁, hnew₂]
      · rw [hnew₁] at hrun ⊢
        exact (hagree k₂ a₂ hb₂ hrun.symm).symm
    · rcases hold k₂ a₂ h₂ with hnew₂ | hb₂
      · rw [hnew₂] at hrun ⊢
        exact hagree k₁ a₁ hb₁ hrun
      · exact hR.agree k₁ k₂ a₁ a₂ hb₁ hb₂ hrun
  · intro k' b h p hp
    rcases hold k' b h with rfl | h
    · exact .inl ⟨_, hphase, hp⟩
    · exact hR.shows k' b h p hp

theorem Ready.materialize (hR : Ready s) {k : Nat} {a : Attempt} (hk : s.attempts k = some a)
    {left : List (String × Value)} (hphase : a.phase = .materialize left) :
    Ready (s.materialize k a left) := by
  have hended : ∀ p ∈ entriesOf a.job.inputBlobs, s.Shows { a with phase := .ended } p :=
    fun p _ => .inr (.inl rfl)
  -- what is not left has been written
  have hwritten : ∀ p ∈ entriesOf a.job.inputBlobs,
      p ∈ left ∨ (s.input a.host a.run p.1).isSome = true := by
    intro p hp
    rcases hR.shows k a hk p hp with ⟨left', hleft, hmem⟩ | hbad | hthere
    · cases hphase.symm.trans hleft
      exact .inl hmem
    · cases hphase.symm.trans hbad
    · exact .inr hthere
  unfold Sys.materialize
  cases left with
  | nil =>
      refine hR.setPhase hk fun p hp => .inr (.inr ?_)
      exact (hwritten p hp).resolve_left List.not_mem_nil
  | cons q left =>
      obtain ⟨name, shaV⟩ := q
      simp only
      split_ifs
      · exact hR.setPhase hk hended
      · cases shaV.asStr? with
        | none => exact hR.setPhase hk hended
        | some sha =>
            have hget : Ready (s.get sha).2 := hR.same rfl rfl
            cases hfound : s.contents.get? sha with
            | none =>
                simp only [Sys.get, hfound] at hget ⊢
                exact hget.setPhase hk hended
            | some bytes =>
                simp only [Sys.get, hfound] at hget ⊢
                refine (hget.writeInput a name bytes).setPhase hk fun p hp => ?_
                rcases hwritten p hp with hmem | hthere
                · rcases List.mem_cons.mp hmem with rfl | hmem
                  · refine .inr (.inr ?_)
                    simp [Sys.writeInput]
                  · exact .inl ⟨left, rfl, hmem⟩
                · refine .inr (.inr ?_)
                  simp only [Sys.writeInput]
                  split_ifs
                  · rfl
                  · exact hthere

theorem recordOutput_attempts (r : RunId) (map : List (String × Value)) :
    (s.recordOutput r map).attempts = s.attempts := by
  unfold Sys.recordOutput
  split <;> rfl

theorem recordOutput_input (r : RunId) (map : List (String × Value)) :
    (s.recordOutput r map).input = s.input := by
  unfold Sys.recordOutput
  split <;> rfl

/-- **One step** keeps it, unless a directory is removed under an attempt. -/
theorem Ready.step {l : Label} (hR : Ready s) (hI : Inv s) (hC : Undisturbed s l)
    (h : step s l = some s') : Ready s' := by
  cases l with
  | tables a =>
      obtain ⟨-, h⟩ := Option.ite_none_right_eq_some.mp h
      obtain ⟨t, -, rfl⟩ := Option.map_eq_some_iff.mp h
      exact hR.same rfl rfl
  | uploadBlob data =>
      cases h
      unfold Sys.uploadBlob
      split
      · exact hR.same rfl rfl
      · split <;> exact hR.same rfl rfl
  | downloadBlob handle =>
      cases h
      unfold Sys.downloadBlob
      cases hfound : s.contents.get? handle with
      | none | some bytes =>
          simp only [Sys.get, hfound]
          exact hR.same rfl rfl
  | claim k host r =>
      obtain ⟨-, h⟩ := Option.ite_none_right_eq_some.mp h
      obtain ⟨row, hrow, h⟩ := Option.bind_eq_some_iff.mp h
      obtain ⟨t, -, rfl⟩ := Option.map_eq_some_iff.mp h
      have hmem := List.mem_of_find?_eq_some hrow
      obtain ⟨rfl, -⟩ : row.id = r ∧ row.run.status = .pending := by
        simpa using List.find?_some hrow
      refine (hR.claim (k := k) rfl fun k' b hb hrun => ?_).same rfl rfl
      exact ((hI.claimed k' b hb).eq row hmem hrun.symm).symm
  | materialize k =>
      obtain ⟨a, hk, h⟩ := Option.bind_eq_some_iff.mp h
      cases hphase : a.phase with
      | materialize left =>
          rw [hphase] at h
          cases h
          exact hR.materialize hk hphase
      | exec | capture left done map | ended =>
          rw [hphase] at h
          cases h
  | exit k files =>
      obtain ⟨a, hk, h⟩ := Option.bind_eq_some_iff.mp h
      cases hphase : a.phase with
      | exec =>
          rw [hphase] at h
          cases h
          refine hR.setPhase hk fun p hp => .inr (.inr ?_)
          simpa [Sys.Shows, hphase] using hR.shows k a hk p hp
      | materialize left | capture left done map | ended =>
          rw [hphase] at h
          cases h
  | capture k =>
      obtain ⟨a, hk, h⟩ := Option.bind_eq_some_iff.mp h
      cases hphase : a.phase with
      | capture left done map =>
          rw [hphase] at h
          cases h
          unfold Sys.capture
          cases left with
          | nil =>
              have hsame := hR.same (recordOutput_attempts a.run map) (recordOutput_input a.run map)
              refine hsame.setPhase ?_ fun p _ => .inr (.inl rfl)
              rwa [recordOutput_attempts]
          | cons f left =>
              have hput : Ready (s.put ⟨.output a.run f.1, f.2⟩) := hR.same rfl rfl
              refine hput.setPhase hk fun p hp => .inr (.inr ?_)
              change (s.input a.host a.run p.1).isSome = true
              simpa [Sys.Shows, hphase] using hR.shows k a hk p hp
      | materialize left | exec | ended =>
          rw [hphase] at h
          cases h
  | stop k =>
      obtain ⟨a, hk, rfl⟩ := Option.map_eq_some_iff.mp h
      exact hR.setPhase hk fun p _ => .inr (.inl rfl)
  | removeInput k =>
      obtain ⟨a, hk, h⟩ := Option.bind_eq_some_iff.mp h
      cases hphase : a.phase with
      | ended =>
          rw [hphase] at h
          cases h
          exact hR.removeInput (hC a hk)
      | materialize left | exec | capture left done map =>
          rw [hphase] at h
          cases h

theorem ready_init : Ready (Sys.init : Sys W) := by
  constructor
  · rintro k k' a a' ⟨⟩
  · rintro k a ⟨⟩

/-! ## Outputs -/

/-- A capture has stored the blob and not yet recorded it. -/
def Sys.Holds (s : Sys W) (sha : String) : Prop :=
  ∃ k a left done map, s.attempts k = some a ∧ a.phase = .capture left done map ∧
    ∃ f ∈ done, W.handle f.2 = sha

/-- A row or a capture names the blob as an output. -/
def Sys.Needs (s : Sys W) (sha : String) : Prop :=
  (∃ row ∈ s.tables.table.runs, mentions row.run.outputBlobs sha = true) ∨ s.Holds sha

/-- What is named is there. -/
def Kept (s : Sys W) : Prop := ∀ sha, s.Needs sha → (s.tables.blobs sha).isSome = true

/-- A sweep takes nothing from a capture. -/
def SparesCaptures (s : Sys W) : Label → Prop
  | .tables (.gcBlobs age) => ∀ sha, s.Holds sha → s.tables.doomed age sha = false
  | _ => True

/-- A step that takes nothing that is named, and names only what is there. -/
theorem Kept.next (hK : Kept s)
    (hblobs : ∀ sha, s.Needs sha → (s.tables.blobs sha).isSome = true →
      (s'.tables.blobs sha).isSome = true)
    (hneeds : ∀ sha, s'.Needs sha → s.Needs sha ∨ (s'.tables.blobs sha).isSome = true) :
    Kept s' := by
  intro sha hsha
  rcases hneeds sha hsha with hold | hthere
  · exact hblobs sha hold (hK sha hold)
  · exact hthere

/-- Neither rows nor captures change. -/
theorem Kept.same (hK : Kept s) (hattempts : s'.attempts = s.attempts)
    (hruns : s'.tables.table.runs = s.tables.table.runs)
    (hblobs : ∀ sha, (s.tables.blobs sha).isSome = true →
      (s'.tables.blobs sha).isSome = true) : Kept s' := by
  refine hK.next (fun sha _ => hblobs sha) fun sha hsha => .inl ?_
  rwa [Sys.Needs, Sys.Holds, hattempts, hruns] at hsha

theorem Kept.put (hK : Kept s) (o : Stored) : Kept (s.put o) := by
  refine hK.same rfl rfl fun sha hsome => ?_
  rw [Sys.put, isSome_putBlob, hsome, Bool.or_true]

theorem Kept.get (hK : Kept s) (sha : String) : Kept (s.get sha).2 := by
  refine hK.same rfl ?_ fun x hsome => ?_
  · rw [Sys.get, getBlob_table]
  · rw [Sys.get, isSome_getBlob, hsome]

theorem Kept.writeInput (hK : Kept s) (a : Attempt) (name : String) (bytes : Bytes) :
    Kept (s.writeInput a name bytes) := hK.same rfl rfl fun _ h => h

/-- An attempt goes on, and has nothing in hand that is not there. -/
theorem Kept.setPhase (hK : Kept s) {k : Nat} {a : Attempt} {phase : Phase}
    (hphase : ∀ left done map, phase = .capture left done map →
      ∀ f ∈ done, (s.tables.blobs (W.handle f.2)).isSome = true) : Kept (s.setPhase k a phase) := by
  refine hK.next (fun _ _ h => h) ?_
  rintro sha (hrow | ⟨k', b, left, done, map, hb, hcapture, f, hf, rfl⟩)
  · exact .inl (.inl hrow)
  · simp only [Sys.setPhase, Function.update_apply] at hb
    split_ifs at hb
    · cases hb
      exact .inr (hphase left done map hcapture f hf)
    · exact .inl (.inr ⟨k', b, left, done, map, hb, hcapture, f, hf, rfl⟩)

/-- A statement of others, and a sweep that spares the captures. -/
theorem Kept.tables (hK : Kept s) {a : BlobLiveness.Label} {t : BlobLiveness.Sys}
    (hC : SparesCaptures s (.tables a)) (ha : others a = true)
    (h : BlobLiveness.step s.tables a = some t) {c : Store W.handle} :
    Kept { s with tables := t, contents := c } := by
  refine hK.next (fun sha hneeds hsome => ?_) fun sha hsha => ?_
  · rw [blobs_step h ha]
    have hspared : taken s.tables a sha = false := by
      unfold taken
      split
      · next age =>
          rcases hneeds with ⟨row, hrow, hmentions⟩ | hholds
          · refine BlobLiveness.doomed_of_references ?_
            rw [BlobLiveness.Sys.references, Bool.or_eq_true]
            exact .inl (List.any_eq_true.mpr ⟨row, hrow, by rw [hmentions, Bool.or_true]⟩)
          · exact hC sha hholds
      · rfl
    simpa [hspared] using hsome
  · rcases hsha with ⟨row', hrow', hmentions⟩ | hholds
    · cases hout : row'.run.outputBlobs with
      | none =>
          rw [hout] at hmentions
          cases hmentions
      | some v =>
          rcases outputs_step (rows_step h) hrow' hout with ⟨row, hrow, -, hold⟩ | hwrites
          · exact .inl (.inl ⟨row, hrow, by rw [hold, ← hout, hmentions]⟩)
          · obtain rfl := eq_of_written hwrites
            cases ha
    · exact .inl (.inr hholds)

/-- The map of a capture is recorded. -/
theorem Kept.recordOutput (hK : Kept s) {r : RunId} {fs : List (Path × Bytes)}
    (hthere : ∀ f ∈ fs, (s.tables.blobs (W.handle f.2)).isSome = true) :
    Kept (s.recordOutput r (mapOf W.crypto fs)) := by
  unfold Sys.recordOutput objectOf
  split_ifs
  · exact hK
  · refine hK.next (fun _ _ h => h) fun sha hsha => ?_
    rcases hsha with ⟨row', hrow', hmentions⟩ | hholds
    · obtain ⟨row, hrow, rfl⟩ := List.mem_map.mp hrow'
      rcases outputBlobs_write s.tables.table.now
          (.setOutputBlobs r (.obj (mapOf W.crypto fs))) row with hkeep | ⟨v, heq, hnew⟩
      · exact .inl (.inl ⟨row, hrow, hkeep ▸ hmentions⟩)
      · cases heq
        rw [hnew] at hmentions
        obtain ⟨name, hmem⟩ := mentions_iff.mp hmentions
        obtain ⟨f, hf, hentry⟩ := exists_of_mem_mapOf hmem
        cases hentry
        exact .inr (hthere f hf)
    · exact .inl (.inr hholds)

/-- **One step** keeps what is named, unless a sweep takes it from a capture. -/
theorem Kept.step {l : Label} (hK : Kept s) (hI : Inv s) (hC : SparesCaptures s l)
    (h : step s l = some s') : Kept s' := by
  cases l with
  | tables a =>
      obtain ⟨hothers, h⟩ := Option.ite_none_right_eq_some.mp h
      obtain ⟨t, ht, rfl⟩ := Option.map_eq_some_iff.mp h
      exact hK.tables hC hothers ht
  | uploadBlob data =>
      cases h
      unfold Sys.uploadBlob
      split
      · exact hK.same rfl rfl fun _ h => h
      · split
        · exact hK.same rfl rfl fun _ h => h
        · exact (hK.put _).same rfl rfl fun _ h => h
  | downloadBlob handle =>
      cases h
      have hget := hK.get handle
      unfold Sys.downloadBlob
      cases hfound : s.contents.get? handle with
      | none | some bytes =>
          simp only [Sys.get, hfound] at hget ⊢
          exact hget.same rfl rfl fun _ h => h
  | claim k host r =>
      obtain ⟨-, h⟩ := Option.ite_none_right_eq_some.mp h
      obtain ⟨row, hrow, h⟩ := Option.bind_eq_some_iff.mp h
      obtain ⟨t, ht, rfl⟩ := Option.map_eq_some_iff.mp h
      have hclaimed : Kept { s with tables := t, contents := s.contents } :=
        hK.tables (a := .table (.write (.claim r))) trivial rfl ht
      exact hclaimed.setPhase (a := ⟨host, r, row.run.toNewRun, .exec⟩)
        fun left done map => by rintro ⟨⟩
  | materialize k =>
      obtain ⟨a, hk, h⟩ := Option.bind_eq_some_iff.mp h
      cases hphase : a.phase with
      | materialize left =>
          rw [hphase] at h
          cases h
          unfold Sys.materialize
          cases left with
          | nil => exact hK.setPhase fun left done map => by rintro ⟨⟩
          | cons p left =>
              obtain ⟨name, shaV⟩ := p
              simp only
              split_ifs
              · exact hK.setPhase fun left done map => by rintro ⟨⟩
              · cases shaV.asStr? with
                | none => exact hK.setPhase fun left done map => by rintro ⟨⟩
                | some sha =>
                    have hget := hK.get sha
                    cases hfound : s.contents.get? sha with
                    | none =>
                        simp only [Sys.get, hfound] at hget ⊢
                        exact hget.setPhase fun left done map => by rintro ⟨⟩
                    | some bytes =>
                        simp only [Sys.get, hfound] at hget ⊢
                        exact (hget.writeInput a name bytes).setPhase
                          fun left done map => by rintro ⟨⟩
      | exec | capture left done map | ended =>
          rw [hphase] at h
          cases h
  | exit k files =>
      obtain ⟨a, hk, h⟩ := Option.bind_eq_some_iff.mp h
      cases hphase : a.phase with
      | exec =>
          rw [hphase] at h
          cases h
          refine hK.setPhase fun left done map heq f hf => ?_
          split_ifs at heq
          cases heq
          cases hf
      | materialize left | capture left done map | ended =>
          rw [hphase] at h
          cases h
  | capture k =>
      obtain ⟨a, hk, h⟩ := Option.bind_eq_some_iff.mp h
      cases hphase : a.phase with
      | capture left done map =>
          rw [hphase] at h
          cases h
          obtain ⟨rfl, -⟩ : map = mapOf W.crypto done ∧ Wrote s.stored a.run done := by
            have hok := hI.phases k a hk
            rwa [PhaseOk, hphase] at hok
          have hthere : ∀ f ∈ done, (s.tables.blobs (W.handle f.2)).isSome = true :=
            fun f hf => hK _ (.inr ⟨k, a, left, done, _, hk, hphase, f, hf, rfl⟩)
          unfold Sys.capture
          cases left with
          | nil =>
              exact (hK.recordOutput hthere).setPhase fun left done map => by rintro ⟨⟩
          | cons f left =>
              refine (hK.put _).setPhase fun left' done' map' heq g hg => ?_
              cases heq
              rw [Sys.put, isSome_putBlob]
              rcases List.mem_append.mp hg with hg | hg
              · rw [hthere g hg, Bool.or_true]
              · rw [List.mem_singleton.mp hg]
                simp
      | materialize left | exec | ended =>
          rw [hphase] at h
          cases h
  | stop k =>
      obtain ⟨a, hk, rfl⟩ := Option.map_eq_some_iff.mp h
      exact hK.setPhase fun left done map => by rintro ⟨⟩
  | removeInput k =>
      obtain ⟨a, hk, h⟩ := Option.bind_eq_some_iff.mp h
      cases hphase : a.phase with
      | ended =>
          rw [hphase] at h
          cases h
          exact hK.same rfl rfl fun _ h => h
      | materialize left | exec | capture left done map =>
          rw [hphase] at h
          cases h

theorem kept_init : Kept (Sys.init : Sys W) := by
  rintro sha (⟨row, ⟨⟩, -⟩ | ⟨k, a, left, done, map, ⟨⟩, -⟩)

/-! ### One file through two runs -/

/-- An empty JSON object, its text in base64 and its handle. -/
def demoBytes : Bytes := utf8 "\x7b\x7d"

def demoData : String := "e30="

def demoHandle : String := "44136fa355b3678a1146ad16f7e8649e94fb4fc21fe77e8310c060f61caaff8a"

/-- The functions on the bytes of this text. -/
def demoWorld : World where
  crypto := demoHash
  decode data := if data = demoData then .ok demoBytes else .error "Invalid padding"
  encode bytes := String.ofList (base64 bytes)

/-- A run of script 1 that captures its output. -/
def capturing : RunRow.NewRun where
  scriptId := 1
  input := .object []
  agentId := some "a"
  inputBlobs := none
  captureOutput := true
  idempotencyKey := none

/-- The path of a file `o`. -/
def outPath : Path := [⟨[111], by decide⟩]

/-- An upload is mounted in run 0, whose job copies it to `/output`; run 1 mounts the
copy, and while its job runs the handle is downloaded. -/
def handedOn : List Label :=
  [ .uploadBlob demoData
  , .tables (.resolveFiles 0 .runScript [("a.json", demoHandle)])
  , .tables (.check 0)
  , .tables (.insertRun 0 capturing)
  , .claim 0 0 0
  , .materialize 0
  , .materialize 0
  , .exit 0 [(outPath, demoBytes)]
  , .capture 0
  , .capture 0
  , .tables (.resolveFiles 1 .runScript [("b.json", demoHandle)])
  , .tables (.check 1)
  , .tables (.insertRun 1 capturing)
  , .claim 1 0 1
  , .materialize 1
  , .materialize 1
  , .downloadBlob demoHandle ]

/-- The names and the handles of a map. -/
def shown (blobs : Option Value) : List (String × Option String) :=
  (entriesOf blobs).map fun e => (e.1, e.2.asStr?)

theorem mem_shown {blobs : Option Value} {name sha : String} :
    (name, some sha) ∈ shown blobs ↔ (name, .str sha) ∈ entriesOf blobs := by
  rw [shown, List.mem_map]
  constructor
  · rintro ⟨⟨name', v⟩, hmem, heq⟩
    obtain ⟨rfl, hv⟩ := Prod.mk.inj heq
    rwa [← Value.asStr?_eq_some.mp hv]
  · exact fun hmem => ⟨_, hmem, rfl⟩

/-- The attempt of run 1. -/
def second : Attempt where
  host := 0
  run := 1
  job := { capturing with inputBlobs := some (.obj [("b.json", .str demoHandle)]) }
  phase := .exec

/-- What the two runs come to. -/
theorem handedOn_runs : ∃ s : Sys demoWorld, Machine.run step Sys.init handedOn = some s ∧
    (s.tables.table.runs.map fun row =>
      (row.id, shown row.run.inputBlobs, shown row.run.outputBlobs)) =
        [ (0, [("a.json", some demoHandle)], [("o", some demoHandle)])
        , (1, [("b.json", some demoHandle)], []) ] ∧
    s.stored.map Stored.bytes = [demoBytes, demoBytes] ∧
    s.attempts 1 = some second ∧ s.input 0 1 "b.json" = some demoBytes ∧
    s.replies = [.downloaded demoHandle demoData 2, .uploaded demoData demoHandle 2] :=
  ⟨_, rfl, by decide +kernel, by decide +kernel, rfl, by decide +kernel, by decide +kernel⟩

theorem eq_demoBytes {s : Sys demoWorld}
    (h : s.stored.map Stored.bytes = [demoBytes, demoBytes]) {bytes : Bytes}
    (hb : s.HasStored bytes) : bytes = demoBytes := by
  obtain ⟨o, ho, rfl⟩ := hb
  have hmem := List.mem_map_of_mem (f := Stored.bytes) ho
  rw [h] at hmem
  simpa using hmem

/-- One content is apart. -/
theorem apart_demo {s : Sys demoWorld}
    (h : s.stored.map Stored.bytes = [demoBytes, demoBytes]) :
    Apart demoWorld.handle s.HasStored := by
  intro b c hb hc _
  rw [eq_demoBytes h hb, eq_demoBytes h hc]

/-- A row of the list. -/
theorem exists_row {s : Sys demoWorld} {rows : List (RunId × List (String × Option String) ×
      List (String × Option String))}
    (h : (s.tables.table.runs.map fun row =>
      (row.id, shown row.run.inputBlobs, shown row.run.outputBlobs)) = rows)
    {id : RunId} {ins outs : List (String × Option String)} (hmem : (id, ins, outs) ∈ rows) :
    ∃ row ∈ s.tables.table.runs, row.id = id ∧ shown row.run.inputBlobs = ins ∧
      shown row.run.outputBlobs = outs := by
  rw [← h] at hmem
  obtain ⟨row, hrow, heq⟩ := List.mem_map.mp hmem
  simp only [Prod.mk.injEq] at heq
  exact ⟨row, hrow, heq⟩

/-- No step of it is a sweep or removes a directory. -/
theorem handedOn_along {C : Sys demoWorld → Label → Prop}
    (hC : ∀ s a, (∀ age, a ≠ .tables (.gcBlobs age)) → (∀ k, a ≠ .removeInput k) → C s a) :
    Machine.Along step C (Sys.init : Sys demoWorld) handedOn := by
  refine Machine.along_of_mem fun a ha s => hC s a ?_ ?_
  · rintro age rfl
    simp [handedOn] at ha
  · rintro k rfl
    simp [handedOn] at ha

/-! ## What files are -/

variable {l : List Label}

/-- **Inputs.**  In every interleaving of tools, sweeps and attempts that removes no
directory under an attempt: while a job runs, the files below its `/input` are those
of the map its run was claimed with, each has the handle the map gives it, and its
bytes have been uploaded or captured. -/
theorem inputs_exact (h : Machine.run step Sys.init l = some s)
    (hC : Machine.Along step Undisturbed (Sys.init : Sys W) l) {k : Nat} {a : Attempt}
    (hk : s.attempts k = some a) (hexec : a.phase = .exec) (name : String) :
    ((s.input a.host a.run name).isSome = true ↔ ∃ v, (name, v) ∈ entriesOf a.job.inputBlobs) ∧
      ∀ bytes, s.input a.host a.run name = some bytes →
        (name, .str (W.handle bytes)) ∈ entriesOf a.job.inputBlobs ∧ s.HasStored bytes := by
  obtain ⟨hI, hR⟩ : Inv s ∧ Ready s :=
    Machine.inv_run (I := fun s => Inv s ∧ Ready s)
      (fun _ _ _ hI hC h => ⟨hI.1.step h, hI.2.step hI.1 hC h⟩) ⟨inv_init, ready_init⟩ hC h
  have hmounted : ∀ bytes, s.input a.host a.run name = some bytes →
      (name, .str (W.handle bytes)) ∈ entriesOf a.job.inputBlobs ∧ s.HasStored bytes := by
    intro bytes hbytes
    obtain ⟨hstored, k', b, hb, -, hrun, hmem⟩ := hI.input _ _ _ _ hbytes
    rw [hR.agree k' k b a hb hk hrun] at hmem
    exact ⟨hmem, hstored⟩
  refine ⟨⟨?_, ?_⟩, hmounted⟩
  · intro hsome
    obtain ⟨bytes, hbytes⟩ := Option.isSome_iff_exists.mp hsome
    exact ⟨_, (hmounted bytes hbytes).1⟩
  · rintro ⟨v, hmem⟩
    rcases hR.shows k a hk _ hmem with ⟨left, hleft, -⟩ | hended | hthere
    · cases hexec.symm.trans hleft
    · cases hexec.symm.trans hended
    · exact hthere

/-- `inputs_exact` of the second run. -/
theorem inputs_exact_second : ∃ s : Sys demoWorld,
    Machine.run step Sys.init handedOn = some s ∧
      s.input 0 1 "b.json" = some demoBytes ∧ s.HasStored demoBytes ∧
      s.input 0 1 "a.json" = none := by
  have hC : Machine.Along step Undisturbed (Sys.init : Sys demoWorld) handedOn := by
    refine handedOn_along fun s a _ ha => ?_
    cases a with
    | removeInput k => exact absurd rfl (ha k)
    | tables | uploadBlob | downloadBlob | claim | materialize | exit | capture | stop => trivial
  obtain ⟨s, hrun, -, -, hk, hfile, -⟩ := handedOn_runs
  refine ⟨s, hrun, hfile, ((inputs_exact hrun hC hk rfl "b.json").2 demoBytes hfile).2, ?_⟩
  have hnone : ¬∃ v, ("a.json", v) ∈ entriesOf second.job.inputBlobs := by simp [second, entriesOf]
  rw [← (inputs_exact hrun hC hk rfl "a.json").1] at hnone
  simpa [second] using hnone

/-- What a row has as an output was stored by the run as a file of that name. -/
theorem Inv.output_file (hI : Inv s) {row : Row} (hrow : row ∈ s.tables.table.runs)
    {name sha : String} (hmem : (name, .str sha) ∈ entriesOf row.run.outputBlobs) :
    ∃ path bytes, rel path = name ∧ W.handle bytes = sha ∧
      ⟨.output row.id path, bytes⟩ ∈ s.stored := by
  cases hout : row.run.outputBlobs with
  | none =>
      rw [hout] at hmem
      cases hmem
  | some v =>
      obtain ⟨fs, rfl, hwrote⟩ := hI.outputs row hrow v hout
      rw [hout] at hmem
      obtain ⟨f, hf, hentry⟩ := exists_of_mem_mapOf hmem
      cases hentry
      exact ⟨f.1, f.2, rfl, rfl, hwrote f hf⟩

/-- **Outputs.**  As long as no sweep takes a blob from a capture that has not recorded
it: what the row of a run has as an output is in the store, and is what the run left
in `/output` under that name. -/
theorem outputs_kept (h : Machine.run step Sys.init l = some s)
    (hC : Machine.Along step SparesCaptures (Sys.init : Sys W) l)
    (hA : Apart W.handle s.HasStored) {row : Row} (hrow : row ∈ s.tables.table.runs)
    {name sha : String} (hmem : (name, .str sha) ∈ entriesOf row.run.outputBlobs) :
    ∃ path bytes, rel path = name ∧ s.contents.get? sha = some bytes ∧
      ⟨.output row.id path, bytes⟩ ∈ s.stored := by
  obtain ⟨hI, hK⟩ : Inv s ∧ Kept s :=
    Machine.inv_run (I := fun s => Inv s ∧ Kept s)
      (fun _ _ _ hI hC h => ⟨hI.1.step h, hI.2.step hI.1 hC h⟩) ⟨inv_init, kept_init⟩ hC h
  obtain ⟨path, bytes, hname, rfl, hstored⟩ := hI.output_file hrow hmem
  have hthere : (s.contents.get? (W.handle bytes)).isSome = true := by
    rw [hI.there]
    exact hK _ (.inl ⟨row, hrow, mentions_iff.mpr ⟨name, hmem⟩⟩)
  obtain ⟨found, hfound⟩ := Option.isSome_iff_exists.mp hthere
  have hsame : found = bytes := hI.within.eq_of_apart hA ⟨_, hstored, rfl⟩ hfound
  exact ⟨path, bytes, hname, hsame ▸ hfound, hstored⟩

/-- `outputs_kept` of the first run. -/
theorem outputs_kept_first : ∃ s : Sys demoWorld,
    Machine.run step Sys.init handedOn = some s ∧ ∃ path bytes, rel path = "o" ∧
      s.contents.get? demoHandle = some bytes ∧ ⟨.output 0 path, bytes⟩ ∈ s.stored := by
  have hC : Machine.Along step SparesCaptures (Sys.init : Sys demoWorld) handedOn := by
    refine handedOn_along fun s a ha _ => ?_
    cases a with
    | tables b =>
        cases b with
        | gcBlobs age => exact absurd rfl (ha age)
        | table | putBlob | getBlob | resolveFiles | check | insertRun | insertSchedule | load
        | reproduce | drop | disable | deleteScript => trivial
    | uploadBlob | downloadBlob | claim | materialize | exit | capture | stop
    | removeInput => trivial
  obtain ⟨s, hrun, hrows, hstored, -⟩ := handedOn_runs
  obtain ⟨row, hrow, hid, -, houts⟩ := exists_row hrows List.mem_cons_self
  have hmem : ("o", .str demoHandle) ∈ entriesOf row.run.outputBlobs :=
    mem_shown.mp (houts ▸ List.mem_cons_self)
  exact ⟨s, hrun, hid ▸ outputs_kept hrun hC (apart_demo hstored) hrow hmem⟩

/-- **From run to run.**  In every interleaving: where a run mounts an output of another,
a file it reads under that name is one the other left in `/output`, byte for byte. -/
theorem pipeline (h : Machine.run step Sys.init l = some s) (hA : Apart W.handle s.HasStored)
    {producer consumer : Row} (hproducer : producer ∈ s.tables.table.runs)
    (hconsumer : consumer ∈ s.tables.table.runs) {out name sha : String}
    (hout : (out, .str sha) ∈ entriesOf producer.run.outputBlobs)
    (hin : ∀ v, (name, v) ∈ entriesOf consumer.run.inputBlobs → v = .str sha)
    {host : Nat} {bytes : Bytes} (hfile : s.input host consumer.id name = some bytes) :
    ∃ path, rel path = out ∧ ⟨.output producer.id path, bytes⟩ ∈ s.stored := by
  have hI := inv_run h
  obtain ⟨hread, k, a, hk, -, hrun, hmem⟩ := hI.input _ _ _ _ hfile
  rw [← (hI.claimed k a hk).eq consumer hconsumer hrun.symm] at hmem
  obtain ⟨path, written, hname, hhandle, hstored⟩ := hI.output_file hproducer hout
  have hsame : bytes = written := by
    refine hA bytes written hread ⟨_, hstored, rfl⟩ ?_
    have hsha := hin _ hmem
    rw [Value.str.injEq] at hsha
    exact hsha.trans hhandle.symm
  exact ⟨path, hname, hsame ▸ hstored⟩

/-- `pipeline` from the first run to the second. -/
theorem pipeline_handed_on : ∃ s : Sys demoWorld,
    Machine.run step Sys.init handedOn = some s ∧ s.input 0 1 "b.json" = some demoBytes ∧
      ∃ path, rel path = "o" ∧ ⟨.output 0 path, demoBytes⟩ ∈ s.stored := by
  obtain ⟨s, hrun, hrows, hstored, -, hfile, -⟩ := handedOn_runs
  obtain ⟨producer, hproducer, hid, -, houts⟩ := exists_row hrows List.mem_cons_self
  obtain ⟨consumer, hconsumer, hid', hins, -⟩ :=
    exists_row hrows (List.mem_cons_of_mem _ List.mem_cons_self)
  have hout : ("o", .str demoHandle) ∈ entriesOf producer.run.outputBlobs :=
    mem_shown.mp (houts ▸ List.mem_cons_self)
  have hin : ∀ v, ("b.json", v) ∈ entriesOf consumer.run.inputBlobs → v = .str demoHandle := by
    intro v hv
    have hmem := List.mem_map_of_mem (f := fun e : String × Value => (e.1, e.2.asStr?)) hv
    rw [← shown, hins] at hmem
    exact Value.asStr?_eq_some.mp (by simpa using hmem)
  refine ⟨s, hrun, hfile, hid ▸ ?_⟩
  exact pipeline hrun (apart_demo hstored) hproducer hconsumer hout hin (hid' ▸ hfile)

/-- **Uploads.**  Whatever happens between two calls: what a download answers for a handle
is, decoded, what every upload that was given this handle had sent. -/
theorem uploads_come_back (h : Machine.run step (Sys.init : Sys W) l = some s)
    (hW : ∀ bytes, s.HasStored bytes → W.decode (W.encode bytes) = .ok bytes)
    (hA : Apart W.handle s.HasStored)
    {data data' handle : String} {size size' : Nat}
    (hup : .uploaded data handle size ∈ s.replies)
    (hdown : .downloaded handle data' size' ∈ s.replies) :
    ∃ bytes, W.decode data = .ok bytes ∧ W.decode data' = .ok bytes ∧
      size = bytes.length ∧ size' = bytes.length := by
  have hI := inv_run h
  obtain ⟨sent, hsent, hdecode, hhandle, hsize⟩ := hI.replies _ hup
  obtain ⟨given, hgiven, rfl, hhandle', hsize'⟩ := hI.replies _ hdown
  have hsame : given.bytes = sent.bytes :=
    hA _ _ ⟨given, hgiven, rfl⟩ ⟨sent, hsent, rfl⟩ (hhandle'.symm.trans hhandle)
  exact ⟨sent.bytes, hdecode, hsame ▸ hW given.bytes ⟨given, hgiven, rfl⟩, hsize, hsame ▸ hsize'⟩

/-- `uploads_come_back` for the one upload. -/
theorem uploads_come_back_once : ∃ s : Sys demoWorld,
    Machine.run step Sys.init handedOn = some s ∧ ∃ bytes,
      demoWorld.decode demoData = .ok bytes ∧ 2 = bytes.length := by
  obtain ⟨s, hrun, -, hstored, -, -, hreplies⟩ := handedOn_runs
  have hW : ∀ bytes, s.HasStored bytes →
      demoWorld.decode (demoWorld.encode bytes) = .ok bytes := by
    intro bytes hb
    rw [eq_demoBytes hstored hb]
    decide +kernel
  obtain ⟨bytes, -, hgiven, hsize, -⟩ := uploads_come_back hrun hW (apart_demo hstored)
    (hreplies ▸ List.mem_cons_of_mem _ List.mem_cons_self) (hreplies ▸ List.mem_cons_self)
  exact ⟨s, hrun, bytes, hgiven, hsize⟩

/-! ## Mounted blobs -/

/-- A sweep takes nothing from a call, a ticker or a reproduction. -/
def SparesHolders (s : Sys W) : Label → Prop
  | .tables a => BlobLiveness.Spares s.tables a
  | _ => True

/-- **Nothing is missing.**  As long as no sweep takes a blob from one who has yet to
insert a row with it, an attempt whose row is there finds every blob of its run. -/
theorem blobs_found (h : Machine.run step Sys.init l = some s)
    (hC : Machine.Along step SparesHolders (Sys.init : Sys W) l) {k : Nat} {a : Attempt}
    (hk : s.attempts k = some a) {row : Row} (hrow : row ∈ s.tables.table.runs)
    (hid : row.id = a.run) {name sha : String}
    (hmem : (name, .str sha) ∈ entriesOf a.job.inputBlobs) :
    ∃ bytes, s.contents.get? sha = some bytes ∧ s.HasStored bytes ∧ W.handle bytes = sha := by
  obtain ⟨hI, hB⟩ : Inv s ∧ BlobLiveness.BlobInv s.tables := by
    refine Machine.inv_run (I := fun s => Inv s ∧ BlobLiveness.BlobInv s.tables) ?_
      ⟨inv_init, BlobLiveness.blobInv_init⟩ hC h
    intro s l s' hI hC h
    refine ⟨hI.1.step h, ?_⟩
    rcases step_tables h with hsame | ⟨b, hb, rfl | hno⟩
    · exact hsame ▸ hI.2
    · exact hI.2.step hC hb
    · refine hI.2.step ?_ hb
      cases b with
      | gcBlobs age => exact absurd rfl (hno age)
      | table | putBlob | getBlob | resolveFiles | check | insertRun | insertSchedule | load
      | reproduce | drop | disable | deleteScript => trivial
  rw [← (hI.claimed k a hk).eq row hrow hid] at hmem
  have hthere : (s.contents.get? sha).isSome = true := by
    rw [hI.there]
    exact hB.runs row hrow sha (mentions_iff.mpr ⟨name, hmem⟩)
  obtain ⟨bytes, hfound⟩ := Option.isSome_iff_exists.mp hthere
  exact ⟨bytes, hfound, hI.get_stored hfound⟩

/-- `blobs_found` for the attempt of the second run. -/
theorem blobs_found_second : ∃ s : Sys demoWorld,
    Machine.run step Sys.init handedOn = some s ∧ ∃ bytes,
      s.contents.get? demoHandle = some bytes ∧ s.HasStored bytes ∧
        demoWorld.handle bytes = demoHandle := by
  have hC : Machine.Along step SparesHolders (Sys.init : Sys demoWorld) handedOn := by
    refine handedOn_along fun s a ha _ => ?_
    cases a with
    | tables b =>
        cases b with
        | gcBlobs age => exact absurd rfl (ha age)
        | table | putBlob | getBlob | resolveFiles | check | insertRun | insertSchedule | load
        | reproduce | drop | disable | deleteScript => trivial
    | uploadBlob | downloadBlob | claim | materialize | exit | capture | stop
    | removeInput => trivial
  obtain ⟨s, hrun, hrows, -, hk, -⟩ := handedOn_runs
  obtain ⟨row, hrow, hid, -⟩ := exists_row hrows (List.mem_cons_of_mem _ List.mem_cons_self)
  exact ⟨s, hrun, blobs_found hrun hC hk hrow hid List.mem_cons_self⟩

end Dokan.Ports.Artifacts
