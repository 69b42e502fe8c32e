import Dokan.Verified.Custody
import Dokan.Verified.Machine

/-!
# The warm pool

`pool.rs`: any number of calls that acquire a container, use it and discard it,
and the filler that grows and shrinks the idle lists.  Each takes the lock of
`idle` for one access at a time, and the labels interleave them.  Docker gives
every container a new id; a container that is created and does not start is in
no place.

The metrics and the digests are left out, and so is the sweep at startup.

## Main results

* `moved` — what a step moves from one place to another.
* `warm_pool_linear` — a container is in at most one place, and one that was
  handed out or dropped never comes back to an idle list.
-/

namespace Dokan.Ports.WarmPool

open Dokan.Verified
open Dokan.Verified.Custody

abbrev Image := String

abbrev ContainerId := String

/-! ## State -/

/-- One call of `acquire`, `acquire_isolated` or `acquire_with_caps`, and the
`discard` of its container. -/
inductive Call
  /-- about to add the image to `known` -/
  | acquiring (image : Image)
  /-- about to lock `idle` -/
  | popping (image : Image)
  /-- about to create a container -/
  | creating
  | holding (id : ContainerId)
  | discarding (id : ContainerId)
  | finished (id : Option ContainerId)

/-- The container a call was handed. -/
def Call.ids : Call → List ContainerId
  | .acquiring _ | .popping _ | .creating => []
  | .holding id | .discarding id => [id]
  | .finished id => id.toList

/-- Where `spawn_filler` is; the images that follow are those of the `for` loop. -/
inductive Filler
  | off
  | sleeping
  /-- `target` is loaded -/
  | loaded (target : Nat)
  | turn (target : Nat) (images : List Image)
  /-- `have` is read -/
  | looked (target len : Nat) (image : Image) (images : List Image)
  /-- the ids popped are discarded one after the other -/
  | dropping (dropIds : List ContainerId) (target : Nat) (images : List Image)
  | filling (deficit : Nat) (target : Nat) (image : Image) (images : List Image)
  | pushing (id : ContainerId) (deficit : Nat) (target : Nat) (image : Image)
      (images : List Image)

/-- The container the filler has created. -/
def Filler.fresh : Filler → List ContainerId
  | .pushing id _ _ _ _ => [id]
  | _ => []

/-- The containers the filler is discarding. -/
def Filler.dropIds : Filler → List ContainerId
  | .dropping dropIds _ _ => dropIds
  | _ => []

/-- `WarmPool`, with the calls and the filler; `created` and `dropped` are
history: all ids of Docker, and those popped for scale-down. -/
structure State where
  targetIdle : Nat
  idle : Image → List ContainerId
  known : List Image
  calls : List Call
  filler : Filler
  created : List ContainerId
  dropped : List ContainerId

def State.new (targetIdle : Nat) : State where
  targetIdle
  idle _ := []
  known := []
  calls := []
  filler := .off
  created := []
  dropped := []

/-! ## Steps -/

/-- `known.insert(image)`. -/
def insertKnown (known : List Image) (image : Image) : List Image :=
  if image ∈ known then known else known ++ [image]

/-- `BURST`. -/
def burst : Nat := 4

/-- `for _ in 0..n`, pop: the ids popped, and what is left. -/
def popN : Nat → List ContainerId → List ContainerId × List ContainerId
  | 0, v => ([], v)
  | n + 1, v =>
      match v.getLast? with
      | none => popN n v
      | some id => (id :: (popN n v.dropLast).1, (popN n v.dropLast).2)

/-- What `create_one` meets. -/
inductive Created
  | started (id : ContainerId)
  /-- `start_container` fails -/
  | unstarted (id : ContainerId)
  /-- no container was created -/
  | refused

inductive Label
  | setTargetIdle (n : Nat)
  | prewarm (images : List Image)
  | arm
  /-- the filler wakes up and loads the target -/
  | wake
  /-- it collects `known`, in the order of the set -/
  | collect (images : List Image)
  /-- it reads the length of the next list -/
  | look
  /-- it pops what is too much, or goes on to create -/
  | act
  | discardDropped
  | createIdle (c : Created)
  | push
  | acquire (image : Image)
  /-- `acquire_isolated`, `acquire_with_caps` -/
  | acquireOneOff
  | insertKnown (call : Nat)
  | pop (call : Nat)
  | create (call : Nat) (c : Created)
  /-- the job is over -/
  | release (call : Nat)
  | removed (call : Nat)

/-- A container of Docker's that is new. -/
def State.mint (s : State) (id : ContainerId) : Option State :=
  if id ∈ s.created then none else some { s with created := id :: s.created }

def State.setCall (s : State) (call : Nat) (c : Call) : State :=
  { s with calls := s.calls.set call c }

/-- The filler, at the head of the inner loop. -/
def fill : Nat → Nat → Image → List Image → Filler
  | 0, target, _, images => .turn target images
  | deficit + 1, target, image, images => .filling deficit target image images

/-- A step of the filler. -/
def fillerStep (s : State) : Label → Option State
  | .arm => if s.filler matches .off then some { s with filler := .sleeping } else none
  | .wake =>
      match s.filler with
      | .sleeping => some { s with filler := .loaded s.targetIdle }
      | _ => none
  | .collect images =>
      match s.filler with
      | .loaded target =>
          if images.Perm s.known then some { s with filler := .turn target images } else none
      | _ => none
  | .look =>
      match s.filler with
      | .turn _ [] => some { s with filler := .sleeping }
      | .turn target (image :: images) =>
          some { s with filler := .looked target (s.idle image).length image images }
      | _ => none
  | .act =>
      match s.filler with
      | .looked target len image images =>
          if len > target then
            let popped := popN (min (len - target) burst) (s.idle image)
            some
              { s with
                idle := Function.update s.idle image popped.2
                filler := .dropping popped.1 target images
                dropped := s.dropped ++ popped.1 }
          else some { s with filler := fill (min (target - len) burst) target image images }
      | _ => none
  | .discardDropped =>
      match s.filler with
      | .dropping [] target images => some { s with filler := .turn target images }
      | .dropping (_ :: dropIds) target images =>
          some { s with filler := .dropping dropIds target images }
      | _ => none
  | .createIdle c =>
      match s.filler with
      | .filling deficit target image images =>
          match c with
          | .started id =>
              (s.mint id).map fun s =>
                { s with filler := .pushing id deficit target image images }
          | .unstarted id =>
              (s.mint id).map fun s => { s with filler := fill deficit target image images }
          | .refused => some { s with filler := fill deficit target image images }
      | _ => none
  | .push =>
      match s.filler with
      | .pushing id deficit target image images =>
          some
            { s with
              idle := Function.update s.idle image (s.idle image ++ [id])
              filler := fill deficit target image images }
      | _ => none
  | _ => none

/-- A step of a call. -/
def callStep (s : State) : Label → Option State
  | .acquire image => some { s with calls := s.calls ++ [.acquiring image] }
  | .acquireOneOff => some { s with calls := s.calls ++ [.creating] }
  | .insertKnown call =>
      match s.calls[call]? with
      | some (.acquiring image) =>
          some (State.setCall { s with known := WarmPool.insertKnown s.known image } call
            (.popping image))
      | _ => none
  | .pop call =>
      match s.calls[call]? with
      | some (.popping image) =>
          match (s.idle image).getLast? with
          | some id =>
              some (State.setCall
                { s with idle := Function.update s.idle image (s.idle image).dropLast } call
                (.holding id))
          | none => some (s.setCall call .creating)
      | _ => none
  | .create call c =>
      match s.calls[call]? with
      | some .creating =>
          match c with
          | .started id => (s.mint id).map fun s => s.setCall call (.holding id)
          | .unstarted id => (s.mint id).map fun s => s.setCall call (.finished none)
          | .refused => some (s.setCall call (.finished none))
      | _ => none
  | .release call =>
      match s.calls[call]? with
      | some (.holding id) => some (s.setCall call (.discarding id))
      | _ => none
  | .removed call =>
      match s.calls[call]? with
      | some (.discarding id) => some (s.setCall call (.finished (some id)))
      | _ => none
  | _ => none

def step (s : State) (a : Label) : Option State :=
  match a with
  | .setTargetIdle n => some { s with targetIdle := n }
  | .prewarm images => some { s with known := images.foldl WarmPool.insertKnown s.known }
  | a => (fillerStep s a).or (callStep s a)

/-! ## Places -/

/-- Where a container can be. -/
inductive Place
  | idle (image : Image)
  /-- created by the filler, not pushed yet -/
  | fresh
  /-- handed to a call -/
  | call (call : Nat)
  /-- popped for scale-down -/
  | dropped
deriving DecidableEq

/-- What is in each place. -/
def State.hold (s : State) : Place → List ContainerId
  | .idle image => s.idle image
  | .fresh => s.filler.fresh
  | .call call => (s.calls[call]?).elim [] Call.ids
  | .dropped => s.dropped

/-- Containers do not leave these places. -/
def Place.settled : Place → Bool
  | .idle _ | .fresh => false
  | .call _ | .dropped => true

/-- What a step does to the places. -/
inductive Moved (s s' : State) : Prop
  | kept (hold : s'.hold = s.hold) (created : s.created ⊆ s'.created)
  | moves (xs : List ContainerId) (p q : Place) (move : Moves s.hold s'.hold xs p q)
      (leaves : p.settled = false) (created : s'.created = s.created)
  | adds (x : ContainerId) (q : Place) (new : x ∉ s.created) (add : Adds s.hold s'.hold x q)
      (created : s'.created = x :: s.created)

section Steps

variable {s s' : State} {a : Label}

theorem popN_perm (n : Nat) (v : List ContainerId) :
    v.Perm ((popN n v).1 ++ (popN n v).2) := by
  induction n generalizing v with
  | zero => exact List.Perm.refl v
  | succ n ih =>
      rw [popN]
      cases hlast : v.getLast? with
      | none => exact ih v
      | some id =>
          have hv := List.dropLast_append_getLast? id hlast
          have hfirst : v.Perm (id :: v.dropLast) :=
            (List.Perm.of_eq hv.symm).trans (List.perm_append_singleton id v.dropLast)
          exact hfirst.trans ((ih v.dropLast).cons id)

@[simp] theorem fill_fresh (deficit target : Nat) (image : Image) (images : List Image) :
    (fill deficit target image images).fresh = [] := by
  cases deficit <;> rfl

@[simp] theorem fill_dropIds (deficit target : Nat) (image : Image) (images : List Image) :
    (fill deficit target image images).dropIds = [] := by
  cases deficit <;> rfl

theorem mint_eq_some {id : ContainerId} (h : s.mint id = some s') :
    id ∉ s.created ∧ s' = { s with created := id :: s.created } := by
  unfold State.mint at h
  split_ifs at h with hid
  exact ⟨hid, (Option.some.inj h).symm⟩

/-- The places after a call has gone on. -/
theorem hold_setCall {call : Nat} {c₀ : Call} (h : s.calls[call]? = some c₀) (c : Call)
    (p : Place) : (s.setCall call c).hold p = if p = .call call then c.ids else s.hold p := by
  split_ifs with hp
  · subst hp
    have hlt := (List.getElem?_eq_some_iff.mp h).1
    simp [State.hold, State.setCall, hlt]
  · cases p with
    | call call' =>
        have hne : call ≠ call' := fun heq => hp (by rw [heq])
        simp [State.hold, State.setCall, hne]
    | idle image => rfl
    | fresh => rfl
    | dropped => rfl

/-- A call that goes on with what it has. -/
theorem hold_setCall_same {call : Nat} {c₀ c : Call} (h : s.calls[call]? = some c₀)
    (hids : c.ids = c₀.ids) : (s.setCall call c).hold = s.hold := by
  funext p
  rw [hold_setCall h]
  split_ifs with hp
  · subst hp
    simp [State.hold, h, hids]
  · rfl

/-- A step that changes neither the idle lists nor what the filler has made. -/
theorem hold_filler {targetIdle : Nat} {known : List Image} {created : List ContainerId}
    {f : Filler} (hfresh : f.fresh = s.filler.fresh) :
    State.hold { s with targetIdle, known, created, filler := f } = s.hold := by
  funext p
  cases p with
  | fresh => exact hfresh
  | idle image | call call | dropped => rfl

/-- What a step of the filler does. -/
inductive FillerMove (s s' : State) : Prop
  /-- it goes on with what it has -/
  | turns (f : Filler) (created : List ContainerId) (fresh : f.fresh = s.filler.fresh)
      (dropIds : f.dropIds <:+ s.filler.dropIds) (grown : s.created ⊆ created)
      (eq : s' = { s with filler := f, created })
  | drops (n target : Nat) (image : Image) (images : List Image) (fresh : s.filler.fresh = [])
      (eq : s' =
        { s with
          idle := Function.update s.idle image (popN n (s.idle image)).2
          filler := .dropping (popN n (s.idle image)).1 target images
          dropped := s.dropped ++ (popN n (s.idle image)).1 })
  | creates (id : ContainerId) (f : Filler) (new : id ∉ s.created) (before : s.filler.fresh = [])
      (after : f.fresh = [id]) (dropIds : f.dropIds = [])
      (eq : s' = { s with created := id :: s.created, filler := f })
  | pushes (id : ContainerId) (image : Image) (f : Filler) (before : s.filler.fresh = [id])
      (after : f.fresh = []) (dropIds : f.dropIds = [])
      (eq : s' =
        { s with idle := Function.update s.idle image (s.idle image ++ [id]), filler := f })

/-- The filler goes on to a place at which it discards nothing. -/
theorem FillerMove.goes {f : Filler} (hfresh : f.fresh = s.filler.fresh) (hids : f.dropIds = []) :
    FillerMove s { s with filler := f } :=
  .turns f s.created hfresh (hids ▸ List.nil_suffix) (List.Subset.refl _) rfl

theorem fillerStep_move (h : fillerStep s a = some s') : FillerMove s s' := by
  cases a with
  | arm =>
      simp only [fillerStep] at h
      split_ifs at h with hoff
      cases h
      refine .goes ?_ rfl
      cases hf : s.filler <;> simp_all [Filler.fresh]
  | wake =>
      simp only [fillerStep] at h
      split at h
      · rename_i hf
        cases h
        exact .goes (by rw [hf]; rfl) rfl
      · cases h
  | collect images =>
      simp only [fillerStep] at h
      split at h
      · rename_i target hf
        split_ifs at h
        cases h
        exact .goes (by rw [hf]; rfl) rfl
      · cases h
  | look =>
      simp only [fillerStep] at h
      split at h
      · rename_i target hf
        cases h
        exact .goes (by rw [hf]; rfl) rfl
      · rename_i target image images hf
        cases h
        exact .goes (by rw [hf]; rfl) rfl
      · cases h
  | act =>
      simp only [fillerStep] at h
      split at h
      · rename_i target len image images hf
        split_ifs at h with hlen
        · cases h
          exact .drops (min (len - target) burst) target image images (by rw [hf]; rfl) rfl
        · cases h
          exact .goes (by rw [hf, fill_fresh]; rfl) (fill_dropIds _ _ _ _)
      · cases h
  | discardDropped =>
      simp only [fillerStep] at h
      split at h
      · rename_i target images hf
        cases h
        exact .goes (by rw [hf]; rfl) rfl
      · rename_i id dropIds target images hf
        cases h
        refine .turns _ _ (by rw [hf]; rfl) ?_ (List.Subset.refl _) rfl
        rw [hf]
        exact List.suffix_cons id dropIds
      · cases h
  | createIdle c =>
      simp only [fillerStep] at h
      split at h
      · rename_i deficit target image images hf
        have hnone : s.filler.fresh = [] := by
          rw [hf]
          rfl
        cases c with
        | started id =>
            obtain ⟨m, hmint, rfl⟩ := Option.map_eq_some_iff.mp h
            obtain ⟨hid, rfl⟩ := mint_eq_some hmint
            exact .creates id _ hid hnone rfl rfl rfl
        | unstarted id =>
            obtain ⟨m, hmint, rfl⟩ := Option.map_eq_some_iff.mp h
            obtain ⟨_, rfl⟩ := mint_eq_some hmint
            refine .turns _ _ (by rw [hnone, fill_fresh]) ?_ (List.subset_cons_self id _) rfl
            rw [fill_dropIds]
            exact List.nil_suffix
        | refused =>
            cases h
            exact .goes (by rw [hnone, fill_fresh]) (fill_dropIds _ _ _ _)
      · cases h
  | push =>
      simp only [fillerStep] at h
      split at h
      · rename_i id deficit target image images hf
        cases h
        exact .pushes id image _ (by rw [hf]; rfl) (fill_fresh _ _ _ _) (fill_dropIds _ _ _ _) rfl
      · cases h
  | setTargetIdle n | prewarm images | acquire image | acquireOneOff | insertKnown call | pop call
    | create call c | release call | removed call => cases h

/-- The idle lists of the other images. -/
theorem hold_update {image : Image} {v : List ContainerId} {f : Filler} {r : Place}
    {dropped : List ContainerId} (hidle : r ≠ .idle image) (hfresh : r ≠ .fresh)
    (hdropped : r ≠ .dropped) :
    State.hold { s with idle := Function.update s.idle image v, filler := f, dropped } r =
      s.hold r := by
  cases r with
  | idle image' =>
      have hne : image' ≠ image := fun heq => hidle (by rw [heq])
      exact Function.update_of_ne hne _ _
  | fresh => exact absurd rfl hfresh
  | call call => rfl
  | dropped => exact absurd rfl hdropped

/-- The filler. -/
theorem moved_filler (h : FillerMove s s') : Moved s s' := by
  cases h with
  | turns f created hfresh _ hgrown heq =>
      subst heq
      exact .kept (hold_filler hfresh) hgrown
  | drops n target image images hfresh heq =>
      subst heq
      refine .moves (popN n (s.idle image)).1 (.idle image) .dropped ⟨?_, ?_, ?_, ?_⟩ rfl rfl
      · intro hne
        cases hne
      · simpa [State.hold] using popN_perm n (s.idle image)
      · exact List.perm_append_comm
      · intro r hr hr'
        by_cases hmade : r = .fresh
        · subst hmade
          exact hfresh.symm
        · exact hold_update hr hmade hr'
  | creates id f hnew hbefore hafter _ heq =>
      subst heq
      refine .adds id .fresh hnew ⟨?_, ?_⟩ rfl
      · show f.fresh.Perm (id :: s.filler.fresh)
        rw [hafter, hbefore]
      · intro r hr
        cases r with
        | fresh => exact absurd rfl hr
        | idle image' | call call | dropped => rfl
  | pushes id image f hbefore hafter _ heq =>
      subst heq
      refine .moves [id] .fresh (.idle image) ⟨?_, ?_, ?_, ?_⟩ rfl rfl
      · intro hne
        cases hne
      · show s.filler.fresh.Perm ([id] ++ f.fresh)
        rw [hbefore, hafter]
        exact List.Perm.refl _
      · simp [State.hold]
      · intro r hr hr'
        by_cases hgone : r = .dropped
        · subst hgone
          rfl
        · exact hold_update hr' hr hgone

/-- What the filler is discarding after a step of its own. -/
theorem dropIds_filler (h : FillerMove s s') :
    s'.filler.dropIds <:+ s.filler.dropIds ∧ s'.dropped = s.dropped ∨
      s'.dropped = s.dropped ++ s'.filler.dropIds := by
  cases h with
  | turns f created _ hids _ heq =>
      subst heq
      exact .inl ⟨hids, rfl⟩
  | drops n target image images _ heq =>
      subst heq
      exact .inr rfl
  | creates id f _ _ _ hids heq =>
      subst heq
      exact .inl ⟨hids ▸ List.nil_suffix, rfl⟩
  | pushes id image f _ _ hids heq =>
      subst heq
      exact .inl ⟨hids ▸ List.nil_suffix, rfl⟩

/-- A call that begins has nothing. -/
theorem hold_begin {c : Call} (hids : c.ids = []) :
    State.hold { s with calls := s.calls ++ [c] } = s.hold := by
  funext p
  cases p with
  | call call =>
      rcases lt_trichotomy call s.calls.length with hlt | rfl | hgt
      · simp [State.hold, List.getElem?_append_left hlt]
      · simp [State.hold, hids]
      · have hnone : (s.calls ++ [c])[call]? = none := by
          rw [List.getElem?_eq_none_iff, List.length_append, List.length_singleton]
          omega
        simp [State.hold, hnone, List.getElem?_eq_none (Nat.le_of_lt hgt)]
  | idle image | fresh | dropped => rfl

/-- What a step of a call does. -/
inductive CallMove (s s' : State) : Prop
  | begins (c : Call) (ids : c.ids = []) (eq : s' = { s with calls := s.calls ++ [c] })
  /-- it goes on with what it has -/
  | goes (call : Nat) (c₀ c : Call) (known : List Image) (created : List ContainerId)
      (found : s.calls[call]? = some c₀) (ids : c.ids = c₀.ids) (grown : s.created ⊆ created)
      (eq : s' = State.setCall { s with known, created } call c)
  | pops (call : Nat) (image : Image) (id : ContainerId)
      (found : s.calls[call]? = some (.popping image)) (last : (s.idle image).getLast? = some id)
      (eq : s' = State.setCall
        { s with idle := Function.update s.idle image (s.idle image).dropLast } call (.holding id))
  | creates (call : Nat) (id : ContainerId) (found : s.calls[call]? = some .creating)
      (new : id ∉ s.created)
      (eq : s' = State.setCall { s with created := id :: s.created } call (.holding id))

theorem callStep_move (h : callStep s a = some s') : CallMove s s' := by
  cases a with
  | acquire image | acquireOneOff =>
      cases h
      exact .begins _ rfl rfl
  | insertKnown call =>
      simp only [callStep] at h
      split at h
      · rename_i image hc
        cases h
        exact .goes call _ (.popping image) _ s.created hc rfl (List.Subset.refl _) rfl
      · cases h
  | pop call =>
      simp only [callStep] at h
      split at h
      · rename_i image hc
        split at h
        · rename_i id hlast
          cases h
          exact .pops call image id hc hlast rfl
        · cases h
          exact .goes call _ .creating s.known s.created hc rfl (List.Subset.refl _) rfl
      · cases h
  | create call c =>
      simp only [callStep] at h
      split at h
      · rename_i hc
        cases c with
        | started id =>
            obtain ⟨m, hmint, rfl⟩ := Option.map_eq_some_iff.mp h
            obtain ⟨hid, rfl⟩ := mint_eq_some hmint
            exact .creates call id hc hid rfl
        | unstarted id =>
            obtain ⟨m, hmint, rfl⟩ := Option.map_eq_some_iff.mp h
            obtain ⟨_, rfl⟩ := mint_eq_some hmint
            exact .goes call _ (.finished none) s.known _ hc rfl (List.subset_cons_self id _) rfl
        | refused =>
            cases h
            exact .goes call _ (.finished none) s.known s.created hc rfl (List.Subset.refl _) rfl
      · cases h
  | release call =>
      simp only [callStep] at h
      split at h
      · rename_i id hc
        cases h
        exact .goes call _ (.discarding id) s.known s.created hc rfl (List.Subset.refl _) rfl
      · cases h
  | removed call =>
      simp only [callStep] at h
      split at h
      · rename_i id hc
        cases h
        exact .goes call _ (.finished (some id)) s.known s.created hc rfl (List.Subset.refl _) rfl
      · cases h
  | setTargetIdle n | prewarm images | arm | wake | collect images | look | act | discardDropped
    | createIdle c | push => cases h

/-- The calls. -/
theorem moved_call (h : CallMove s s') : Moved s s' := by
  cases h with
  | begins c hids heq =>
      subst heq
      exact .kept (hold_begin hids) (List.Subset.refl _)
  | goes call c₀ c known created hc hids hgrown heq =>
      subst heq
      have hsame := hold_setCall_same (s := { s with known, created }) hc hids
      exact .kept (hsame.trans (hold_filler rfl)) hgrown
  | pops call image id hc hlast heq =>
      subst heq
      have hhold := hold_setCall
        (s := { s with idle := Function.update s.idle image (s.idle image).dropLast }) hc
        (.holding id)
      refine .moves [id] (.idle image) (.call call) ⟨?_, ?_, ?_, ?_⟩ rfl rfl
      · intro hne
        cases hne
      · have hv := List.dropLast_append_getLast? id hlast
        have hfirst := List.perm_append_singleton id (s.idle image).dropLast
        rw [hv] at hfirst
        rw [hhold, if_neg (by intro hne; cases hne)]
        simpa [State.hold] using hfirst
      · rw [hhold, if_pos rfl]
        simp [State.hold, hc, Call.ids]
      · intro r hr hr'
        rw [hhold, if_neg hr']
        cases r with
        | idle image' =>
            have hne : image' ≠ image := fun heq => hr (by rw [heq])
            exact Function.update_of_ne hne _ _
        | fresh | call call' | dropped => rfl
  | creates call id hc hnew heq =>
      subst heq
      have hhold := hold_setCall (s := { s with created := id :: s.created }) hc (.holding id)
      refine .adds id (.call call) hnew ⟨?_, ?_⟩ rfl
      · rw [hhold, if_pos rfl]
        simp [State.hold, hc, Call.ids]
      · intro r hr
        rw [hhold, if_neg hr]
        exact congrFun (hold_filler rfl) r

/-- A call does not touch the filler. -/
theorem frame_call (h : CallMove s s') : s'.filler = s.filler ∧ s'.dropped = s.dropped := by
  cases h with
  | begins _ _ heq | goes _ _ _ _ _ _ _ _ heq | pops _ _ _ _ _ heq | creates _ _ _ _ heq =>
      subst heq
      exact ⟨rfl, rfl⟩

/-- **A step** keeps every container where it is, moves some out of an idle list
or out of the hands of the filler, or adds a new one. -/
theorem moved (h : step s a = some s') : Moved s s' := by
  unfold step at h
  split at h
  · rename_i n
    cases h
    have hhold : State.hold { s with targetIdle := n } = s.hold := hold_filler rfl
    exact .kept hhold (List.Subset.refl _)
  · rename_i images
    cases h
    have hhold : State.hold { s with known := images.foldl WarmPool.insertKnown s.known } =
        s.hold := hold_filler rfl
    exact .kept hhold (List.Subset.refl _)
  · rcases Option.or_eq_some_iff.mp h with hfiller | ⟨_, hcall⟩
    · exact moved_filler (fillerStep_move hfiller)
    · exact moved_call (callStep_move hcall)

end Steps

/-! ## Runs -/

/-- A container is in one place, and Docker made it; what the filler is
discarding was popped last. -/
structure Inv (s : State) : Prop where
  apart : Apart s.hold
  minted : ∀ p, ∀ x ∈ s.hold p, x ∈ s.created
  dropping : s.filler.dropIds <:+ s.dropped

theorem inv_new (targetIdle : Nat) : Inv (.new targetIdle) := by
  have hnone : ∀ p x, x ∉ (State.new targetIdle).hold p := by
    intro p x hx
    cases p <;> simp [State.hold, State.new, Filler.fresh] at hx
  refine ⟨⟨fun p => ?_, fun hx => absurd hx (hnone _ _)⟩, fun p x hx => absurd hx (hnone p x),
    List.nil_suffix⟩
  rw [List.eq_nil_iff_forall_not_mem.mpr (hnone p)]
  exact List.nodup_nil

/-- The ids being discarded are the last that were popped. -/
theorem dropping_step {s s' : State} {a : Label} (hI : s.filler.dropIds <:+ s.dropped)
    (h : step s a = some s') : s'.filler.dropIds <:+ s'.dropped := by
  unfold step at h
  split at h
  · cases h
    exact hI
  · cases h
    exact hI
  · rcases Option.or_eq_some_iff.mp h with hfiller | ⟨_, hcall⟩
    · rcases dropIds_filler (fillerStep_move hfiller) with ⟨hids, hdropped⟩ | hdropped
      · rw [hdropped]
        exact hids.trans hI
      · rw [hdropped]
        exact List.suffix_append _ _
    · obtain ⟨hf, hdropped⟩ := frame_call (callStep_move hcall)
      rw [hf, hdropped]
      exact hI

theorem inv_step {s s' : State} {a : Label} (hI : Inv s) (h : step s a = some s') : Inv s' := by
  have hdropping := dropping_step hI.dropping h
  cases moved h with
  | kept hhold hcreated =>
      refine ⟨hhold ▸ hI.apart, fun p x hx => ?_, hdropping⟩
      rw [hhold] at hx
      exact hcreated (hI.minted p x hx)
  | moves xs p q hmove _ hcreated =>
      refine ⟨hI.apart.move hmove, fun r x hx => ?_, hdropping⟩
      rw [hcreated]
      rcases (hmove.mem_iff hI.apart).mp hx with ⟨hxs, _⟩ | ⟨_, hx⟩
      · exact hI.minted p x (hmove.source.mem_iff.mpr (List.mem_append_left _ hxs))
      · exact hI.minted r x hx
  | adds x q hnew hadd hcreated =>
      refine ⟨hI.apart.add hadd fun r hx => hnew (hI.minted r x hx), fun r y hy => ?_, hdropping⟩
      rw [hcreated]
      rcases hadd.mem_iff.mp hy with ⟨rfl, _⟩ | hy
      · exact List.mem_cons_self
      · exact List.mem_cons_of_mem _ (hI.minted r y hy)

/-- In every reachable state. -/
theorem inv_run {targetIdle : Nat} {l : List Label} {s : State}
    (h : Machine.run step (.new targetIdle) l = some s) : Inv s :=
  Machine.inv_run (C := fun _ _ => True) (I := Inv) (fun _ _ _ hI _ hs => inv_step hI hs)
    (inv_new targetIdle) (Machine.along_of_forall fun _ _ => trivial) h

/-- Nothing leaves a settled place. -/
theorem settled_step {s s' : State} {a : Label} (hI : Inv s) (h : step s a = some s')
    {p : Place} (hp : p.settled = true) {x : ContainerId} (hx : x ∈ s.hold p) :
    x ∈ s'.hold p := by
  cases moved h with
  | kept hhold _ =>
      rw [hhold]
      exact hx
  | moves xs q r hmove hleaves _ =>
      refine (hmove.mem_iff hI.apart).mpr (.inr ⟨fun hxs => ?_, hx⟩)
      have hq := hI.apart.one hx (hmove.source.mem_iff.mpr (List.mem_append_left _ hxs))
      rw [hq, hleaves] at hp
      cases hp
  | adds y q _ hadd _ => exact hadd.mem_iff.mpr (.inr hx)

/-- A run keeps the invariant and what is in the settled places. -/
theorem settled_run {s t : State} {l : List Label} (hI : Inv s)
    (h : Machine.run step s l = some t) {p : Place} (hp : p.settled = true) {x : ContainerId}
    (hx : x ∈ s.hold p) : x ∈ t.hold p := by
  have hkeep := Machine.inv_run (C := fun _ _ => True) (I := fun s => Inv s ∧ x ∈ s.hold p)
    (fun s a s' hs _ hstep => ⟨inv_step hs.1 hstep, settled_step hs.1 hstep hp hs.2⟩)
    ⟨hI, hx⟩ (Machine.along_of_forall fun _ _ => trivial) h
  exact hkeep.2

/-- A container is in one place: an idle list, the hands of the filler, one
call, or among those popped for scale-down, which are discarded once. -/
structure Linear (s : State) : Prop where
  apart : Apart s.hold
  dropping : s.filler.dropIds.Nodup
  dropped : ∀ x ∈ s.filler.dropIds, x ∈ s.dropped

/-- **Warm pool linearity.**  In every reachable state a container is in one
place; one that was handed to a call stays with that call, one that was popped
for scale-down stays dropped, and neither is in an idle list again. -/
theorem warm_pool_linear (targetIdle : Nat) (l₁ l₂ : List Label) {s t : State}
    (hs : Machine.run step (.new targetIdle) l₁ = some s) (ht : Machine.run step s l₂ = some t) :
    Linear t ∧
      (∀ call, ∀ x ∈ s.hold (.call call), x ∈ t.hold (.call call) ∧ ∀ image, x ∉ t.idle image) ∧
      ∀ x ∈ s.dropped, x ∈ t.dropped ∧ ∀ image, x ∉ t.idle image := by
  have hI := inv_run hs
  have hI' : Inv t := by
    have hrun : Machine.run step (.new targetIdle) (l₁ ++ l₂) = some t := by
      rw [Machine.run_append, hs, Option.bind_some, ht]
    exact inv_run hrun
  have haway : ∀ p : Place, p.settled = true → ∀ x ∈ t.hold p, ∀ image, x ∉ t.idle image := by
    intro p hp x hx image hidle
    have hplace : p = .idle image := hI'.apart.one hx hidle
    rw [hplace] at hp
    cases hp
  refine ⟨⟨hI'.apart, ?_, fun x hx => hI'.dropping.subset hx⟩, fun call x hx => ?_,
    fun x hx => ?_⟩
  · exact hI'.dropping.sublist.nodup (hI'.apart.nodup .dropped)
  · have hkept := settled_run hI ht (p := .call call) rfl hx
    exact ⟨hkept, haway (.call call) rfl x hkept⟩
  · have hkept : x ∈ t.hold .dropped := settled_run hI ht (p := .dropped) rfl hx
    exact ⟨hkept, haway .dropped rfl x hkept⟩

/-- The filler warms one container, and a call takes it. -/
def warmed : List Label :=
  [ .prewarm ["alpine:3.20"]
  , .arm
  , .wake
  , .collect ["alpine:3.20"]
  , .look
  , .act
  , .createIdle (.started "c1")
  , .push
  , .acquire "alpine:3.20"
  , .insertKnown 0
  , .pop 0 ]

/-- `warm_pool_linear` for a container that is taken and then discarded. -/
theorem warm_pool_linear_warmed :
    ∃ s t, Machine.run step (.new 1) warmed = some s ∧
      Machine.run step s [.release 0, .removed 0] = some t ∧ Linear t ∧
      "c1" ∈ s.hold (.call 0) ∧ ∀ image, "c1" ∉ t.idle image := by
  refine ⟨_, _, rfl, rfl, ?_⟩
  have hrun := warm_pool_linear 1 warmed [.release 0, .removed 0] rfl rfl
  exact ⟨hrun.1, List.mem_singleton_self _, (hrun.2.1 0 _ (List.mem_singleton_self _)).2⟩

end Dokan.Ports.WarmPool
