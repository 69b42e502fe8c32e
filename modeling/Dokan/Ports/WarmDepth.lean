import Dokan.Ports.WarmPool

/-!
# How deep the warm pool gets

The filler reads the target at the head of a tick and the length of a list before it
acts on it, and lets go of the lock in between; calls take containers meanwhile, and
the autoscaler may set another target.  Only the filler adds to a list, so what it has
read is a bound from above.

## Main results

* `depth_step` — every step keeps the idle lists and what the filler is about to add
  within the targets.
* `depth_bounded` — no idle list is ever longer than the greatest target so far.
-/

namespace Dokan.Ports.WarmDepth

open Dokan.Verified
open Dokan.Ports.WarmPool

/-! ## What the filler has read -/

/-- The filler works with a target of at most `t`, on images that are known; what it has
read of a list and is still to create fits the target, and it drops a burst at most. -/
def Fits (t : Nat) (s : State) : Filler → Prop
  | .off | .sleeping => True
  | .loaded target => target ≤ t
  | .turn target images => target ≤ t ∧ images ⊆ s.known
  | .dropping dropIds target images =>
      target ≤ t ∧ images ⊆ s.known ∧ dropIds.length ≤ burst
  | .looked target len image images =>
      target ≤ t ∧ image :: images ⊆ s.known ∧ (s.idle image).length ≤ len
  | .filling deficit target image images | .pushing _ deficit target image images =>
      target ≤ t ∧ image :: images ⊆ s.known ∧ (s.idle image).length + deficit < target

/-- No list is deeper than `t`, and only those of known images have containers. -/
structure DepthInv (t : Nat) (s : State) : Prop where
  target : s.targetIdle ≤ t
  depth : ∀ image, (s.idle image).length ≤ t
  known : ∀ image, image ∉ s.known → s.idle image = []
  filler : Fits t s s.filler

section Steps

variable {t : Nat} {s s' : State} {a : Label} {f : Filler} {image : Image}
  {images : List Image}

/-- Shorter lists of more images. -/
theorem Fits.mono (h : Fits t s f) (hidle : ∀ image, (s'.idle image).length ≤ (s.idle image).length)
    (hknown : s.known ⊆ s'.known) : Fits t s' f := by
  cases f with
  | off | sleeping => trivial
  | loaded target => exact h
  | turn target images => exact ⟨h.1, List.Subset.trans h.2 hknown⟩
  | dropping dropIds target images => exact ⟨h.1, List.Subset.trans h.2.1 hknown, h.2.2⟩
  | looked target len image images =>
      exact ⟨h.1, List.Subset.trans h.2.1 hknown, (hidle image).trans h.2.2⟩
  | filling deficit target image images | pushing id deficit target image images =>
      exact ⟨h.1, List.Subset.trans h.2.1 hknown,
        (Nat.add_le_add_right (hidle image) deficit).trans_lt h.2.2⟩

/-- The head of the inner loop, when what is to be created fits. -/
theorem fits_fill {target deficit : Nat} (ht : target ≤ t) (himages : image :: images ⊆ s.known)
    (hroom : (s.idle image).length + deficit ≤ target) :
    Fits t s (fill deficit target image images) := by
  cases deficit with
  | zero => exact ⟨ht, fun x hx => himages (List.mem_cons_of_mem _ hx)⟩
  | succ deficit => exact ⟨ht, himages, hroom⟩

/-- A step that takes from the lists and learns of images. -/
theorem DepthInv.shrink (hI : DepthInv t s) (htarget : s'.targetIdle ≤ t)
    (hidle : ∀ image, (s'.idle image).length ≤ (s.idle image).length)
    (hknown : s.known ⊆ s'.known) (hf : Fits t s' s'.filler) : DepthInv t s' where
  target := htarget
  depth image := (hidle image).trans (hI.depth image)
  known image himage := by
    have hnil := hI.known image fun hmem => himage (hknown hmem)
    have hle := hidle image
    rw [hnil] at hle
    exact List.length_eq_zero_iff.mp (Nat.le_zero.mp hle)
  filler := hf

/-- A step of the filler that leaves the lists. -/
theorem DepthInv.turn (hI : DepthInv t s) (hf : Fits t s f) (created : List ContainerId) :
    DepthInv t { s with filler := f, created } :=
  hI.shrink hI.target (fun _ => Nat.le_refl _) (List.Subset.refl _)
    (hf.mono (fun _ => Nat.le_refl _) (List.Subset.refl _))

theorem popN_left (n : Nat) (v : List ContainerId) : (popN n v).2.length ≤ v.length := by
  rw [(popN_perm n v).length_eq, List.length_append]
  exact Nat.le_add_left _ _

theorem popN_popped (n : Nat) (v : List ContainerId) : (popN n v).1.length ≤ n := by
  induction n generalizing v with
  | zero => exact Nat.le_refl _
  | succ n ih =>
      rw [popN]
      split
      · exact (ih v).trans (Nat.le_succ n)
      · exact Nat.succ_le_succ (ih _)

/-- A list is replaced by a shorter one. -/
theorem length_update {v : List ContainerId} (h : v.length ≤ (s.idle image).length)
    (image' : Image) : (Function.update s.idle image v image').length ≤ (s.idle image').length := by
  by_cases heq : image' = image
  · subst heq
    rw [Function.update_self]
    exact h
  · rw [Function.update_of_ne heq]

/-- The filler. -/
theorem depth_filler (hI : DepthInv t s) (h : fillerStep s a = some s') : DepthInv t s' := by
  have hfits := hI.filler
  cases a with
  | arm =>
      simp only [fillerStep] at h
      split_ifs at h
      cases h
      exact hI.turn (f := .sleeping) trivial s.created
  | wake =>
      simp only [fillerStep] at h
      split at h
      · cases h
        exact hI.turn (f := .loaded s.targetIdle) hI.target s.created
      · cases h
  | collect images =>
      simp only [fillerStep] at h
      split at h
      · rename_i target hf
        rw [hf] at hfits
        split_ifs at h with hperm
        cases h
        exact hI.turn (f := .turn target images) ⟨hfits, hperm.subset⟩ s.created
      · cases h
  | look =>
      simp only [fillerStep] at h
      split at h
      · cases h
        exact hI.turn (f := .sleeping) trivial s.created
      · rename_i target image images hf
        rw [hf] at hfits
        cases h
        exact hI.turn (f := .looked target (s.idle image).length image images)
          ⟨hfits.1, hfits.2, Nat.le_refl _⟩ s.created
      · cases h
  | act =>
      simp only [fillerStep] at h
      split at h
      · rename_i target len image images hf
        rw [hf] at hfits
        obtain ⟨htarget, himages, hlen⟩ := hfits
        split_ifs at h with hmore
        · cases h
          have hshorter := length_update (popN_left (min (len - target) burst) (s.idle image))
          refine hI.shrink hI.target hshorter (List.Subset.refl _) ⟨htarget, ?_, ?_⟩
          · exact fun x hx => himages (List.mem_cons_of_mem _ hx)
          · exact (popN_popped _ _).trans (Nat.min_le_right _ _)
        · cases h
          refine hI.turn (fits_fill htarget himages ?_) s.created
          have hdeficit : min (target - len) burst ≤ target - len := Nat.min_le_left _ _
          omega
      · cases h
  | discardDropped =>
      simp only [fillerStep] at h
      split at h
      · rename_i target images hf
        rw [hf] at hfits
        cases h
        exact hI.turn (f := .turn target images) ⟨hfits.1, hfits.2.1⟩ s.created
      · rename_i id dropIds target images hf
        rw [hf] at hfits
        cases h
        exact hI.turn (f := .dropping dropIds target images)
          ⟨hfits.1, hfits.2.1, (Nat.le_succ _).trans hfits.2.2⟩ s.created
      · cases h
  | createIdle c =>
      simp only [fillerStep] at h
      split at h
      · rename_i deficit target image images hf
        rw [hf] at hfits
        have hgone : Fits t s (fill deficit target image images) :=
          fits_fill hfits.1 hfits.2.1 (Nat.le_of_lt hfits.2.2)
        cases c with
        | started id =>
            obtain ⟨m, hmint, rfl⟩ := Option.map_eq_some_iff.mp h
            obtain ⟨-, rfl⟩ := mint_eq_some hmint
            exact hI.turn (f := .pushing id deficit target image images) hfits (id :: s.created)
        | unstarted id =>
            obtain ⟨m, hmint, rfl⟩ := Option.map_eq_some_iff.mp h
            obtain ⟨-, rfl⟩ := mint_eq_some hmint
            exact hI.turn hgone (id :: s.created)
        | refused =>
            cases h
            exact hI.turn hgone s.created
      · cases h
  | push =>
      simp only [fillerStep] at h
      split at h
      · rename_i id deficit target image images hf
        rw [hf] at hfits
        obtain ⟨htarget, himages, hroom⟩ := hfits
        cases h
        have hlength : (s.idle image ++ [id]).length = (s.idle image).length + 1 :=
          List.length_append
        -- the list that grows is the one the room was left in
        refine ⟨hI.target, fun image' => ?_, fun image' himage' => ?_, ?_⟩
        · by_cases heq : image' = image
          · subst heq
            simp only [Function.update_self]
            omega
          · simp only [Function.update_of_ne heq]
            exact hI.depth image'
        · have hne : image' ≠ image := by
            rintro rfl
            exact himage' (himages List.mem_cons_self)
          simp only [Function.update_of_ne hne]
          exact hI.known image' himage'
        · refine fits_fill htarget himages ?_
          simp only [Function.update_self]
          omega
      · cases h
  | setTargetIdle n | prewarm images | acquire image | acquireOneOff | insertKnown call | pop call
    | create call c | release call | removed call => cases h

theorem subset_insertKnown (known : List Image) (image : Image) :
    known ⊆ WarmPool.insertKnown known image := by
  unfold WarmPool.insertKnown
  split_ifs
  · exact List.Subset.refl _
  · exact List.subset_append_left _ _

theorem subset_foldl_insertKnown (known images : List Image) :
    known ⊆ images.foldl WarmPool.insertKnown known := by
  induction images generalizing known with
  | nil => exact List.Subset.refl _
  | cons image images ih => exact List.Subset.trans (subset_insertKnown known image) (ih _)

/-- A call forgets no image. -/
theorem known_call (h : callStep s a = some s') : s.known ⊆ s'.known := by
  cases a with
  | insertKnown call =>
      simp only [callStep] at h
      split at h
      · cases h
        exact subset_insertKnown _ _
      · cases h
  | pop call =>
      simp only [callStep] at h
      split at h
      · split at h <;> cases h <;> exact List.Subset.refl _
      · cases h
  | create call c =>
      simp only [callStep] at h
      split at h
      · cases c with
        | started id | unstarted id =>
            obtain ⟨m, hmint, rfl⟩ := Option.map_eq_some_iff.mp h
            obtain ⟨-, rfl⟩ := mint_eq_some hmint
            exact List.Subset.refl _
        | refused =>
            cases h
            exact List.Subset.refl _
      · cases h
  | release call | removed call =>
      simp only [callStep] at h
      split at h
      · cases h
        exact List.Subset.refl _
      · cases h
  | acquire image | acquireOneOff =>
      cases h
      exact List.Subset.refl _
  | setTargetIdle n | prewarm images | arm | wake | collect images | look | act | discardDropped
    | createIdle c | push => cases h

/-- The calls. -/
theorem depth_call (hI : DepthInv t s) (h : callStep s a = some s') : DepthInv t s' := by
  have hknown := known_call h
  have hsame : ∀ image, (s.idle image).length ≤ (s.idle image).length := fun _ => Nat.le_refl _
  cases callStep_move h with
  | begins c _ heq =>
      subst heq
      exact hI.shrink hI.target hsame (List.Subset.refl _)
        (hI.filler.mono hsame (List.Subset.refl _))
  | goes call c₀ c known created _ _ _ heq =>
      subst heq
      exact hI.shrink hI.target hsame hknown (hI.filler.mono hsame hknown)
  | pops call image id _ _ heq =>
      subst heq
      have hpop : (s.idle image).dropLast.length ≤ (s.idle image).length := by
        rw [List.length_dropLast]
        exact Nat.sub_le _ _
      have hshorter := length_update hpop
      exact hI.shrink hI.target hshorter (List.Subset.refl _)
        (hI.filler.mono hshorter (List.Subset.refl _))
  | creates call id _ _ heq =>
      subst heq
      exact hI.shrink hI.target hsame (List.Subset.refl _)
        (hI.filler.mono hsame (List.Subset.refl _))

/-- **Every step** keeps to the bound, if the target that is set does. -/
theorem depth_step (hI : DepthInv t s) (ha : ∀ n, a = .setTargetIdle n → n ≤ t)
    (h : step s a = some s') : DepthInv t s' := by
  have hsame : ∀ image, (s.idle image).length ≤ (s.idle image).length := fun _ => Nat.le_refl _
  unfold step at h
  split at h
  · rename_i n
    cases h
    exact hI.shrink (ha n rfl) hsame (List.Subset.refl _)
      (hI.filler.mono hsame (List.Subset.refl _))
  · rename_i images
    cases h
    have hknown := subset_foldl_insertKnown s.known images
    exact hI.shrink hI.target hsame hknown (hI.filler.mono hsame hknown)
  · rcases Option.or_eq_some_iff.mp h with hfiller | ⟨_, hcall⟩
    · exact depth_filler hI hfiller
    · exact depth_call hI hcall

end Steps

/-! ## Runs -/

theorem depthInv_new {targetIdle t : Nat} (h : targetIdle ≤ t) : DepthInv t (.new targetIdle) where
  target := h
  depth _ := Nat.zero_le _
  known _ _ := rfl
  filler := trivial

/-- What all idle lists hold together. -/
theorem DepthInv.total {t : Nat} {s : State} (hI : DepthInv t s) :
    (s.known.flatMap s.idle).length ≤ s.known.length * t := by
  rw [List.length_flatMap]
  refine (List.sum_le_card_nsmul _ t fun n hn => ?_).trans_eq ?_
  · obtain ⟨image, -, rfl⟩ := List.mem_map.mp hn
    exact hI.depth image
  · rw [List.length_map, smul_eq_mul]

/-- No target of a run is above `t`. -/
abbrev Targets (t : Nat) : State → Label → Prop := fun _ a => ∀ n, a = .setTargetIdle n → n ≤ t

theorem depthInv_run {t : Nat} {l : List Label} {s s' : State} (hI : DepthInv t s)
    (hl : Machine.Along step (Targets t) s l) (h : Machine.run step s l = some s') :
    DepthInv t s' :=
  Machine.inv_run (fun _ _ _ hI ha hstep => depth_step hI ha hstep) hI hl h

/-- **Warm depth.**  In every interleaving of the filler, the autoscaler and any number of
calls, no idle list is longer than the greatest target the pool has had, only images that
were asked for have one, and all of them together hold at most that many containers for
each of these images. -/
theorem depth_bounded {targetIdle t : Nat} {l : List Label} {s : State} (h : targetIdle ≤ t)
    (hl : ∀ n, .setTargetIdle n ∈ l → n ≤ t)
    (hrun : Machine.run step (.new targetIdle) l = some s) :
    (∀ image, (s.idle image).length ≤ t) ∧ (∀ image, image ∉ s.known → s.idle image = []) ∧
      (s.known.flatMap s.idle).length ≤ s.known.length * t := by
  have htargets : Machine.Along step (Targets t) (.new targetIdle) l :=
    Machine.along_of_forall fun a ha n hn => hl n (hn ▸ ha)
  have hI := depthInv_run (depthInv_new h) htargets hrun
  exact ⟨hI.depth, hI.known, hI.total⟩

/-- The target is lowered between the look and the act of the filler. -/
def lowered : List Label :=
  [ .prewarm ["alpine:3.20"], .arm, .wake, .collect ["alpine:3.20"], .look
  , .setTargetIdle 0
  , .act, .createIdle (.started "c1"), .push, .createIdle (.started "c2"), .push ]

/-- `depth_bounded` for that run. -/
theorem depth_bounded_lowered : ∃ s, Machine.run step (.new 2) lowered = some s ∧
    (s.idle "alpine:3.20").length = 2 ∧ ∀ image, (s.idle image).length ≤ 2 := by
  refine ⟨_, rfl, rfl, (@depth_bounded 2 2 lowered _ (Nat.le_refl 2) ?_ rfl).1⟩
  intro n hn
  simp only [lowered, List.mem_cons, Label.setTargetIdle.injEq, reduceCtorEq, List.not_mem_nil,
    or_false, false_or] at hn
  rw [hn]
  exact Nat.zero_le 2

end Dokan.Ports.WarmDepth
