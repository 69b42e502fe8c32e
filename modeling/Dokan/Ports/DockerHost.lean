import Dokan.Ports.Autoscale
import Dokan.Ports.WarmDepth

/-!
# The containers of a Docker host

One executor at a time owns a Docker host.  It may die at any point and be started
again; at its start it discards what `list_containers` answers for the label
`dokan.role=warm`, and only then arms the pool and the autoscaler.  Docker may fail to
answer, to start what it has created, or to remove what it is told to.

## Main results

* `active_step` — what a step of the pool takes up and lets go of.
* `containers_accounted` — what the pool holds exists; and if Docker has answered since
  the executor was last down, nothing else does, and there is a bound on it.
-/

namespace Dokan.Ports.DockerHost

open Dokan.Verified
open Dokan.Ports.WarmPool
open Dokan.Ports.WarmDepth

/-! ## What the pool holds -/

/-- The container a call has, until it is discarded. -/
def inUse : Call → Option ContainerId
  | .holding id | .discarding id => some id
  | .acquiring _ | .popping _ | .creating | .finished _ => none

/-- The containers of all calls. -/
def jobs (s : State) : List ContainerId := s.calls.filterMap inUse

/-- The pool has the container: idle, with the filler, or with a call. -/
def Active (s : State) (x : ContainerId) : Prop :=
  (∃ image, x ∈ s.idle image) ∨ x ∈ s.filler.fresh ∨ x ∈ s.filler.dropIds ∨ x ∈ jobs s

/-- The container that Docker has created, started or not. -/
def made : WarmPool.Label → Option ContainerId
  | .createIdle (.started id) | .createIdle (.unstarted id) => some id
  | .create _ (.started id) | .create _ (.unstarted id) => some id
  | _ => none

/-- The container that was created and started. -/
def started : WarmPool.Label → Option ContainerId
  | .createIdle (.started id) | .create _ (.started id) => some id
  | _ => none

theorem made_of_started {a : WarmPool.Label} {id : ContainerId} (h : started a = some id) :
    made a = some id := by
  unfold started at h
  split at h
  · exact h
  · exact h
  · cases h

/-- The container that `discard` is called with. -/
def discards (s : State) : WarmPool.Label → Option ContainerId
  | .removed call =>
      match s.calls[call]? with
      | some (.discarding id) => some id
      | _ => none
  | .discardDropped => s.filler.dropIds.head?
  | _ => none

section Pool

variable {s s' : State} {a : WarmPool.Label} {x id : ContainerId} {image : Image}
  {call : Nat} {c c₀ : Call}

/-- Another call has the container. -/
def Elsewhere (s : State) (call : Nat) (x : ContainerId) : Prop :=
  ∃ (j : Nat) (c : Call), j ≠ call ∧ s.calls[j]? = some c ∧ inUse c = some x

theorem mem_jobs :
    x ∈ jobs s ↔ ∃ (j : Nat) (c : Call), s.calls[j]? = some c ∧ inUse c = some x := by
  rw [jobs, List.mem_filterMap]
  constructor
  · rintro ⟨c, hmem, hc⟩
    obtain ⟨j, hj⟩ := List.mem_iff_getElem?.mp hmem
    exact ⟨j, c, hj, hc⟩
  · rintro ⟨j, c, hj, hc⟩
    exact ⟨c, List.mem_of_getElem? hj, hc⟩

theorem mem_jobs_iff (hc : s.calls[call]? = some c₀) :
    x ∈ jobs s ↔ inUse c₀ = some x ∨ Elsewhere s call x := by
  rw [mem_jobs]
  constructor
  · rintro ⟨j, c, hj, hx⟩
    by_cases heq : j = call
    · subst heq
      cases hc.symm.trans hj
      exact .inl hx
    · exact .inr ⟨j, c, heq, hj, hx⟩
  · rintro (hx | ⟨j, c, -, hj, hx⟩)
    · exact ⟨call, c₀, hc, hx⟩
    · exact ⟨j, c, hj, hx⟩

/-- The calls after one has gone on. -/
theorem mem_jobs_setCall (hc : s.calls[call]? = some c₀) :
    x ∈ jobs (s.setCall call c) ↔ inUse c = some x ∨ Elsewhere s call x := by
  have hlt := (List.getElem?_eq_some_iff.mp hc).1
  have hset : (s.setCall call c).calls[call]? = some c := by simp [State.setCall, hlt]
  rw [mem_jobs_iff hset]
  refine or_congr Iff.rfl (exists_congr fun j => exists_congr fun c' => ?_)
  refine and_congr_right fun hne => ?_
  simp [State.setCall, Ne.symm hne]

/-- The idle containers, apart from those of one image. -/
theorem idle_iff (image : Image) : (∃ image', x ∈ s.idle image') ↔
    x ∈ s.idle image ∨ ∃ image', image' ≠ image ∧ x ∈ s.idle image' := by
  constructor
  · rintro ⟨image', hx⟩
    by_cases heq : image' = image
    · exact .inl (heq ▸ hx)
    · exact .inr ⟨image', heq, hx⟩
  · rintro (hx | ⟨image', -, hx⟩)
    · exact ⟨image, hx⟩
    · exact ⟨image', hx⟩

/-- The idle containers when the list of one image has changed. -/
theorem idle_update {v : List ContainerId} :
    (∃ image', x ∈ Function.update s.idle image v image') ↔
      x ∈ v ∨ ∃ image', image' ≠ image ∧ x ∈ s.idle image' := by
  rw [idle_iff (s := { s with idle := Function.update s.idle image v }) image]
  refine or_congr ?_ (exists_congr fun image' => and_congr_right fun hne => ?_)
  · simp only [Function.update_self]
  · simp only [Function.update_of_ne hne]

theorem active_iff (image : Image) : Active s x ↔
    (x ∈ s.idle image ∨ ∃ image', image' ≠ image ∧ x ∈ s.idle image') ∨
      x ∈ s.filler.fresh ∨ x ∈ s.filler.dropIds ∨ x ∈ jobs s :=
  or_congr_left (idle_iff image)

theorem active_update {v dropped : List ContainerId} {f : Filler} :
    Active { s with idle := Function.update s.idle image v, filler := f, dropped } x ↔
      (x ∈ v ∨ ∃ image', image' ≠ image ∧ x ∈ s.idle image') ∨
        x ∈ f.fresh ∨ x ∈ f.dropIds ∨ x ∈ jobs s :=
  or_congr_left idle_update

/-- A call that holds a container is where the container is. -/
theorem hold_of_inUse (hc : s.calls[call]? = some c) (hx : inUse c = some x) :
    x ∈ s.hold (.call call) := by
  have hids : x ∈ c.ids := by
    cases c <;> simp_all [inUse, Call.ids]
  simpa [State.hold, hc] using hids

/-- A container that a call has is nowhere else. -/
theorem alone_call (hI : Inv s) (hc : s.calls[call]? = some c) (hid : inUse c = some id) :
    ¬ ((∃ image, id ∈ s.idle image) ∨ id ∈ s.filler.fresh ∨ id ∈ s.filler.dropIds ∨
      Elsewhere s call id) := by
  have hplace := hold_of_inUse hc hid
  rintro (⟨image, hx⟩ | hx | hx | ⟨j, c', hne, hj, hx⟩)
  · cases hI.apart.one (p := .idle image) hx hplace
  · cases hI.apart.one (p := .fresh) hx hplace
  · cases hI.apart.one (p := .dropped) (hI.dropping.subset hx) hplace
  · have heq := hI.apart.one (hold_of_inUse hj hx) hplace
    exact hne (Place.call.inj heq)

/-- A container that the filler is discarding is nowhere else. -/
theorem alone_dropped (hI : Inv s) {dropIds : List ContainerId}
    (hdrop : s.filler.dropIds = id :: dropIds) :
    ¬ ((∃ image, id ∈ s.idle image) ∨ id ∈ s.filler.fresh ∨ id ∈ dropIds ∨ id ∈ jobs s) := by
  have hmem : id ∈ s.filler.dropIds := hdrop ▸ List.mem_cons_self
  have hplace : id ∈ s.hold .dropped := hI.dropping.subset hmem
  rintro (⟨image, hx⟩ | hx | hx | hx)
  · cases hI.apart.one (p := .idle image) hx hplace
  · cases hI.apart.one (p := .fresh) hx hplace
  · have hnd := hI.dropping.sublist.nodup (hI.apart.nodup .dropped)
    rw [hdrop] at hnd
    exact (List.nodup_cons.mp hnd).1 hx
  · obtain ⟨j, c, hj, hx⟩ := mem_jobs.mp hx
    cases hI.apart.one (hold_of_inUse hj hx) hplace

/-- What a step takes up and lets go of. -/
abbrev Accounted (s s' : State) (a : WarmPool.Label) : Prop :=
  ∀ x, Active s' x ↔ (Active s x ∧ discards s a ≠ some x) ∨ started a = some x

/-- A step that takes up nothing and lets nothing go. -/
theorem Accounted.same (hdiscards : discards s a = none) (hstarted : started a = none)
    (h : ∀ x, Active s' x ↔ Active s x) : Accounted s s' a := by
  intro x
  simp [hdiscards, hstarted, h x]

/-- The filler goes on with what it has. -/
theorem Accounted.turn {f : Filler} {created : List ContainerId}
    (hdiscards : discards s a = none) (hstarted : started a = none)
    (hfresh : f.fresh = s.filler.fresh) (hdrop : f.dropIds = s.filler.dropIds) :
    Accounted s { s with filler := f, created } a :=
  .same hdiscards hstarted fun x => by simp only [Active, jobs, hfresh, hdrop]

/-- The filler. -/
theorem accounted_filler (hI : Inv s) (h : fillerStep s a = some s') : Accounted s s' a := by
  cases a with
  | arm =>
      simp only [fillerStep] at h
      split_ifs at h with hoff
      cases h
      have hf : s.filler = .off := by cases hf : s.filler <;> simp_all
      exact .turn rfl rfl (by rw [hf]; rfl) (by rw [hf]; rfl)
  | wake =>
      simp only [fillerStep] at h
      split at h
      · rename_i hf
        cases h
        exact .turn rfl rfl (by rw [hf]; rfl) (by rw [hf]; rfl)
      · cases h
  | collect images =>
      simp only [fillerStep] at h
      split at h
      · rename_i target hf
        split_ifs at h
        cases h
        exact .turn rfl rfl (by rw [hf]; rfl) (by rw [hf]; rfl)
      · cases h
  | look =>
      simp only [fillerStep] at h
      split at h
      · rename_i target hf
        cases h
        exact .turn rfl rfl (by rw [hf]; rfl) (by rw [hf]; rfl)
      · rename_i target image images hf
        cases h
        exact .turn rfl rfl (by rw [hf]; rfl) (by rw [hf]; rfl)
      · cases h
  | act =>
      simp only [fillerStep] at h
      split at h
      · rename_i target len image images hf
        split_ifs at h with hmore
        · cases h
          have hfresh : s.filler.fresh = [] := by rw [hf]; rfl
          have hdrop : s.filler.dropIds = [] := by rw [hf]; rfl
          refine .same rfl rfl fun x => ?_
          have hperm := (popN_perm (min (len - target) burst) (s.idle image)).mem_iff (a := x)
          rw [active_update, active_iff image, hfresh, hdrop, hperm, List.mem_append]
          simp only [Filler.fresh, Filler.dropIds, List.not_mem_nil, false_or]
          grind
        · cases h
          refine .turn rfl rfl ?_ ?_
          · rw [hf, fill_fresh]
            rfl
          · rw [hf, fill_dropIds]
            rfl
      · cases h
  | discardDropped =>
      simp only [fillerStep] at h
      split at h
      · rename_i target images hf
        cases h
        refine .turn ?_ rfl (by rw [hf]; rfl) (by rw [hf]; rfl)
        simp [discards, hf, Filler.dropIds]
      · rename_i id dropIds target images hf
        cases h
        have hdrop : s.filler.dropIds = id :: dropIds := by rw [hf]; rfl
        have hfresh : s.filler.fresh = [] := by rw [hf]; rfl
        have hlone := alone_dropped hI hdrop
        intro x
        simp only [Active, jobs, discards, started, hdrop, hfresh, List.head?_cons, List.mem_cons,
          ne_eq, Option.some.injEq, reduceCtorEq, or_false] at hlone ⊢
        constructor
        · intro hx
          refine ⟨hx.imp_right (Or.imp_right (Or.imp_left .inr)), ?_⟩
          rintro rfl
          exact hlone hx
        · rintro ⟨hidle | hx | (rfl | hx) | hx, hne⟩
          · exact .inl hidle
          · cases hx
          · exact absurd rfl hne
          · exact .inr (.inr (.inl hx))
          · exact .inr (.inr (.inr hx))
      · cases h
  | createIdle c =>
      simp only [fillerStep] at h
      split at h
      · rename_i deficit target image images hf
        have hfresh : s.filler.fresh = [] := by rw [hf]; rfl
        have hdrop : s.filler.dropIds = [] := by rw [hf]; rfl
        cases c with
        | started id =>
            obtain ⟨m, hmint, rfl⟩ := Option.map_eq_some_iff.mp h
            obtain ⟨-, rfl⟩ := mint_eq_some hmint
            intro x
            simp only [Active, jobs, discards, started, Filler.fresh, Filler.dropIds,
              List.mem_singleton, List.not_mem_nil, false_or, ne_eq,
              reduceCtorEq, not_false_eq_true, and_true, Option.some.injEq]
            grind
        | unstarted id =>
            obtain ⟨m, hmint, rfl⟩ := Option.map_eq_some_iff.mp h
            obtain ⟨-, rfl⟩ := mint_eq_some hmint
            exact .turn rfl rfl (hfresh ▸ fill_fresh _ _ _ _) (hdrop ▸ fill_dropIds _ _ _ _)
        | refused =>
            cases h
            exact .turn rfl rfl (hfresh ▸ fill_fresh _ _ _ _) (hdrop ▸ fill_dropIds _ _ _ _)
      · cases h
  | push =>
      simp only [fillerStep] at h
      split at h
      · rename_i id deficit target image images hf
        have hfresh : s.filler.fresh = [id] := by rw [hf]; rfl
        have hdrop : s.filler.dropIds = [] := by rw [hf]; rfl
        cases h
        refine .same rfl rfl fun x => ?_
        rw [active_update, active_iff image, hfresh, hdrop, fill_fresh, fill_dropIds,
          List.mem_append]
        simp only [List.not_mem_nil, false_or]
        grind
      · cases h
  | setTargetIdle n | prewarm images | acquire image | acquireOneOff | insertKnown call | pop call
    | create call c | release call | removed call => cases h

theorem active_setCall (hc : s.calls[call]? = some c₀) : Active (s.setCall call c) x ↔
    (∃ image, x ∈ s.idle image) ∨ x ∈ s.filler.fresh ∨ x ∈ s.filler.dropIds ∨
      inUse c = some x ∨ Elsewhere s call x :=
  or_congr_right (or_congr_right (or_congr_right (mem_jobs_setCall hc)))

theorem active_call (hc : s.calls[call]? = some c₀) : Active s x ↔
    (∃ image, x ∈ s.idle image) ∨ x ∈ s.filler.fresh ∨ x ∈ s.filler.dropIds ∨
      inUse c₀ = some x ∨ Elsewhere s call x :=
  or_congr_right (or_congr_right (or_congr_right (mem_jobs_iff hc)))

/-- A call goes on with what it has. -/
theorem Accounted.goes {known : List Image} {created : List ContainerId}
    (hdiscards : discards s a = none) (hstarted : started a = none)
    (hc : s.calls[call]? = some c₀) (hsame : inUse c = inUse c₀) :
    Accounted s (State.setCall { s with known, created } call c) a := by
  refine .same hdiscards hstarted fun x => ?_
  rw [active_setCall (s := { s with known, created }) hc, active_call hc, hsame]
  rfl

/-- The calls. -/
theorem accounted_call (hI : Inv s) (h : callStep s a = some s') : Accounted s s' a := by
  cases a with
  | acquire image | acquireOneOff =>
      cases h
      refine .same rfl rfl fun x => ?_
      simp [Active, jobs, inUse]
  | insertKnown call =>
      simp only [callStep] at h
      split at h
      · rename_i image hc
        cases h
        exact .goes rfl rfl hc rfl
      · cases h
  | pop call =>
      simp only [callStep] at h
      split at h
      · rename_i image hc
        split at h
        · rename_i id hlast
          cases h
          refine .same rfl rfl fun x => ?_
          have hlist := List.dropLast_append_getLast? id hlast
          have hmem : x ∈ s.idle image ↔ x ∈ (s.idle image).dropLast ∨ x = id := by
            conv_lhs => rw [← hlist]
            rw [List.mem_append, List.mem_singleton]
          rw [active_setCall (s := { s with idle := Function.update s.idle image _ }) hc,
            active_call hc, idle_update, idle_iff image, hmem]
          simp only [inUse, Option.some.injEq, reduceCtorEq, false_or, Elsewhere]
          grind
        · cases h
          exact .goes rfl rfl hc rfl
      · cases h
  | create call c =>
      simp only [callStep] at h
      split at h
      · rename_i hc
        cases c with
        | started id =>
            obtain ⟨m, hmint, rfl⟩ := Option.map_eq_some_iff.mp h
            obtain ⟨-, rfl⟩ := mint_eq_some hmint
            intro x
            rw [active_setCall (s := { s with created := id :: s.created }) hc, active_call hc]
            simp only [inUse, discards, started, Option.some.injEq, reduceCtorEq, ne_eq,
              not_false_eq_true, and_true, false_or, Elsewhere]
            grind
        | unstarted id =>
            obtain ⟨m, hmint, rfl⟩ := Option.map_eq_some_iff.mp h
            obtain ⟨-, rfl⟩ := mint_eq_some hmint
            exact .goes rfl rfl hc rfl
        | refused =>
            cases h
            exact .goes rfl rfl hc rfl
      · cases h
  | release call =>
      simp only [callStep] at h
      split at h
      · rename_i id hc
        cases h
        exact .goes rfl rfl hc rfl
      · cases h
  | removed call =>
      simp only [callStep] at h
      split at h
      · rename_i id hc
        cases h
        have hlone := alone_call hI hc rfl
        intro x
        rw [active_setCall hc, active_call hc]
        simp only [inUse, discards, started, hc, ne_eq, Option.some.injEq, reduceCtorEq, or_false,
          false_or]
        constructor
        · intro hx
          refine ⟨hx.imp_right (Or.imp_right (Or.imp_right .inr)), ?_⟩
          rintro rfl
          exact hlone hx
        · rintro ⟨hidle | hfresh | hdrop | heq | helse, hne⟩
          · exact .inl hidle
          · exact .inr (.inl hfresh)
          · exact .inr (.inr (.inl hdrop))
          · exact absurd heq hne
          · exact .inr (.inr (.inr helse))
      · cases h
  | setTargetIdle n | prewarm images | arm | wake | collect images | look | act | discardDropped
    | createIdle c | push => cases h

/-- **A step of the pool** takes up what it has started and lets go of what it discards;
every other container it has stays with it. -/
theorem active_step (hI : Inv s) (h : WarmPool.step s a = some s') : Accounted s s' a := by
  unfold WarmPool.step at h
  split at h
  · cases h
    exact .same rfl rfl fun x => Iff.rfl
  · cases h
    exact .same rfl rfl fun x => Iff.rfl
  · rcases Option.or_eq_some_iff.mp h with hfiller | ⟨_, hcall⟩
    · exact accounted_filler hI hfiller
    · exact accounted_call hI hcall

/-- Docker gives out new ids. -/
theorem made_step (h : WarmPool.step s a = some s') (hmade : made a = some id) :
    id ∉ s.created ∧ s'.created = id :: s.created := by
  cases a with
  | createIdle c =>
      simp only [WarmPool.step, fillerStep, callStep, Option.or_none] at h
      split at h
      · cases c with
        | started id' | unstarted id' =>
            cases hmade
            obtain ⟨m, hmint, rfl⟩ := Option.map_eq_some_iff.mp h
            obtain ⟨hnew, rfl⟩ := mint_eq_some hmint
            exact ⟨hnew, rfl⟩
        | refused => cases hmade
      · cases h
  | create call c =>
      simp only [WarmPool.step, fillerStep, callStep, Option.none_or] at h
      split at h
      · cases c with
        | started id' | unstarted id' =>
            cases hmade
            obtain ⟨m, hmint, rfl⟩ := Option.map_eq_some_iff.mp h
            obtain ⟨hnew, rfl⟩ := mint_eq_some hmint
            exact ⟨hnew, rfl⟩
        | refused => cases hmade
      · cases h
  | setTargetIdle n | prewarm images | arm | wake | collect images | look | act | discardDropped
    | push | acquire image | acquireOneOff | insertKnown call | pop call | release call
    | removed call => cases hmade

theorem created_step (h : WarmPool.step s a = some s') : s.created ⊆ s'.created := by
  cases moved h with
  | kept _ hcreated => exact hcreated
  | moves _ _ _ _ _ hcreated => exact hcreated ▸ List.Subset.refl _
  | adds x _ _ _ hcreated => exact hcreated ▸ List.subset_cons_self x _

end Pool

/-! ## The host -/

/-- Where the executor is. -/
inductive Daemon
  | down
  /-- `sweep_orphans` has its answer and discards one after the other -/
  | sweeping (list : List ContainerId)
  /-- the pool is armed -/
  | up (pool : State)

/-- A Docker host; `created` is history: all ids Docker has given out. -/
structure Host where
  /-- what carries the label `dokan.role=warm` -/
  containers : List ContainerId
  created : List ContainerId
  daemon : Daemon

/-- Before the first executor. -/
def Host.new : Host := { containers := [], created := [], daemon := .down }

/-- `remove_container`, whose failure is ignored. -/
def Host.discard (h : Host) (ok : Bool) (id : ContainerId) : Host :=
  if ok then { h with containers := h.containers.erase id } else h

/-- What Docker does for a step of the pool. -/
def Host.serve (h : Host) (pool : State) (a : WarmPool.Label) (ok : Bool) : Host :=
  let h := (discards pool a).elim h (h.discard ok)
  { h with containers := (made a).toList ++ h.containers }

inductive Label
  /-- an executor starts, and `list_containers` answers -/
  | boot (answer : Option (List ContainerId))
  | discardOrphan (ok : Bool)
  /-- `arm_pool`, `spawn_autoscaler` -/
  | arm
  /-- the end of a tick of the autoscaler; so many containers should be warm -/
  | scale (demand : Nat)
  | pool (a : WarmPool.Label) (ok : Bool)
  /-- the executor dies -/
  | crash

def step (cli : Autoscale.Cli) (h : Host) : Label → Option Host
  | .boot answer =>
      match h.daemon, answer with
      | .down, none => some { h with daemon := .sweeping [] }
      | .down, some list =>
          if list.Perm h.containers then some { h with daemon := .sweeping list } else none
      | _, _ => none
  | .discardOrphan ok =>
      match h.daemon with
      | .sweeping (id :: list) => some { h.discard ok id with daemon := .sweeping list }
      | _ => none
  | .arm =>
      match h.daemon with
      | .sweeping [] =>
          some { h with daemon := .up { State.new cli.warmIdle with created := h.created } }
      | _ => none
  | .scale demand =>
      match h.daemon, Autoscale.clamp demand cli.warmIdle cli.maxWarm with
      | .up pool, some depth =>
          (WarmPool.step pool (.setTargetIdle depth)).map fun pool => { h with daemon := .up pool }
      | _, _ => none
  | .pool a ok =>
      match h.daemon with
      | .up pool =>
          if a matches .setTargetIdle _ then none
          else
            (WarmPool.step pool a).map fun pool' =>
              { h.serve pool a ok with created := pool'.created, daemon := .up pool' }
      | _ => none
  | .crash => if h.daemon matches .down then none else some { h with daemon := .down }

/-- What a step does to the host. -/
inductive HostMove (cli : Autoscale.Cli) (h : Host) (a : Label) (h' : Host) : Prop
  | listed (list : List ContainerId) (down : h.daemon = .down)
      (answer : a = .boot (some list) ∧ list.Perm h.containers ∨ a = .boot none ∧ list = [])
      (eq : h' = { h with daemon := .sweeping list })
  | swept (id : ContainerId) (list : List ContainerId) (ok : Bool) (label : a = .discardOrphan ok)
      (sweeping : h.daemon = .sweeping (id :: list))
      (eq : h' = { h.discard ok id with daemon := .sweeping list })
  | armed (sweeping : h.daemon = .sweeping [])
      (eq : h' = { h with daemon := .up { State.new cli.warmIdle with created := h.created } })
  | scaled (pool pool' : State) (demand depth : Nat) (up : h.daemon = .up pool)
      (target : Autoscale.clamp demand cli.warmIdle cli.maxWarm = some depth)
      (step : WarmPool.step pool (.setTargetIdle depth) = some pool')
      (eq : h' = { h with daemon := .up pool' })
  | served (pool pool' : State) (b : WarmPool.Label) (ok : Bool) (label : a = .pool b ok)
      (up : h.daemon = .up pool) (target : ∀ n, b ≠ .setTargetIdle n)
      (step : WarmPool.step pool b = some pool')
      (eq : h' = { h.serve pool b ok with created := pool'.created, daemon := .up pool' })
  | crashed (eq : h' = { h with daemon := .down })

section Steps

variable {cli : Autoscale.Cli} {h h' : Host} {a : Label} {pool pool' : State}
  {x id : ContainerId} {ok : Bool}

theorem step_move (hstep : step cli h a = some h') : HostMove cli h a h' := by
  cases a with
  | boot answer =>
      simp only [step] at hstep
      split at hstep
      · rename_i hdown
        cases hstep
        exact .listed [] hdown (.inr ⟨rfl, rfl⟩) rfl
      · rename_i list hdown
        split_ifs at hstep with hperm
        cases hstep
        exact .listed list hdown (.inl ⟨rfl, hperm⟩) rfl
      · cases hstep
  | discardOrphan ok =>
      simp only [step] at hstep
      split at hstep
      · rename_i id list hsweeping
        cases hstep
        exact .swept id list ok rfl hsweeping rfl
      · cases hstep
  | arm =>
      simp only [step] at hstep
      split at hstep
      · rename_i hsweeping
        cases hstep
        exact .armed hsweeping rfl
      · cases hstep
  | scale demand =>
      simp only [step] at hstep
      split at hstep
      · rename_i pool depth hup htarget
        obtain ⟨pool', hpool, rfl⟩ := Option.map_eq_some_iff.mp hstep
        exact .scaled pool pool' demand depth hup htarget hpool rfl
      · cases hstep
  | pool b ok =>
      simp only [step] at hstep
      split at hstep
      · rename_i pool hup
        obtain ⟨htarget, hs⟩ := Option.ite_none_left_eq_some.mp hstep
        obtain ⟨pool', hpool, rfl⟩ := Option.map_eq_some_iff.mp hs
        refine .served pool pool' b ok rfl hup ?_ hpool rfl
        rintro n rfl
        exact htarget rfl
      · cases hstep
  | crash =>
      simp only [step] at hstep
      split_ifs at hstep
      cases hstep
      exact .crashed rfl

/-! ## What the executor may count on -/

/-- What holds of a host whose pool is armed. -/
structure PoolOk (cli : Autoscale.Cli) (h : Host) (pool : State) : Prop where
  inv : Inv pool
  created : pool.created = h.created
  depth : DepthInv (max cli.warmIdle cli.maxWarm) pool
  exist : ∀ x, Active pool x → x ∈ h.containers

structure HostInv (cli : Autoscale.Cli) (h : Host) : Prop where
  created : h.containers ⊆ h.created
  nodup : h.containers.Nodup
  pool : ∀ pool, h.daemon = .up pool → PoolOk cli h pool

theorem mem_discard (hnd : h.containers.Nodup) :
    x ∈ (h.discard ok id).containers ↔ x ∈ h.containers ∧ ¬ (ok = true ∧ id = x) := by
  unfold Host.discard
  split_ifs with hok
  · simp only [hnd.mem_erase_iff, hok, true_and, ne_comm (a := x), and_comm]
  · simp [hok]

theorem discard_sublist : (h.discard ok id).containers.Sublist h.containers := by
  unfold Host.discard
  split_ifs
  · exact List.erase_sublist
  · exact List.Sublist.refl _

/-- What is left when Docker has served a step. -/
theorem mem_serve (hnd : h.containers.Nodup) (b : WarmPool.Label) :
    x ∈ (h.serve pool b ok).containers ↔ made b = some x ∨
      x ∈ h.containers ∧ ¬ (ok = true ∧ discards pool b = some x) := by
  have hmade : x ∈ (made b).toList ↔ made b = some x := by
    rw [Option.mem_toList]
  unfold Host.serve
  cases discards pool b with
  | none => simp [hmade]
  | some id => simp [hmade, mem_discard hnd]

theorem serve_nodup (hI : HostInv cli h) (hok : PoolOk cli h pool) {b : WarmPool.Label}
    (hstep : WarmPool.step pool b = some pool') : (h.serve pool b ok).containers.Nodup := by
  have hleft : ((discards pool b).elim h (h.discard ok)).containers.Sublist h.containers := by
    cases discards pool b with
    | none => exact List.Sublist.refl _
    | some id => exact discard_sublist
  refine List.nodup_append.mpr ⟨by cases made b <;> simp, hI.nodup.sublist hleft, ?_⟩
  intro id hid y hy
  have hnew := (made_step hstep (Option.mem_toList.mp hid)).1
  rintro rfl
  exact hnew (hok.created ▸ hI.created (hleft.subset hy))

/-- The pool of an executor that has just started has nothing. -/
theorem not_active_new {n : Nat} {created : List ContainerId} :
    ¬ Active { State.new n with created } x := by
  simp [Active, jobs, State.new, Filler.fresh, Filler.dropIds]

theorem poolOk_new : PoolOk cli h { State.new cli.warmIdle with created := h.created } := by
  have hnone : ∀ p x, x ∉ State.hold { State.new cli.warmIdle with created := h.created } p := by
    intro p x hx
    cases p <;> simp [State.hold, State.new, Filler.fresh] at hx
  refine ⟨⟨⟨fun p => ?_, fun hx => absurd hx (hnone _ _)⟩, fun p x hx => absurd hx (hnone p x),
    List.nil_suffix⟩, rfl, ⟨Nat.le_max_left _ _, fun _ => Nat.zero_le _, fun _ _ => rfl, trivial⟩,
    fun x hx => absurd hx not_active_new⟩
  rw [List.eq_nil_iff_forall_not_mem.mpr (hnone p)]
  exact List.nodup_nil

/-- What `clamp` returns is within its bounds. -/
theorem clamp_le {x lo hi d : Nat} (hd : Autoscale.clamp x lo hi = some d) : d ≤ max lo hi := by
  unfold Autoscale.clamp at hd
  split_ifs at hd <;> cases hd <;> omega

/-- **Every step** keeps the host in order, whatever Docker answers. -/
theorem hostInv_step (hI : HostInv cli h) (hstep : step cli h a = some h') : HostInv cli h' := by
  cases step_move hstep with
  | listed list _ _ heq =>
      subst heq
      exact ⟨hI.created, hI.nodup, by rintro pool ⟨⟩⟩
  | swept id list ok _ _ heq =>
      subst heq
      refine ⟨fun x hx => ?_, hI.nodup.sublist discard_sublist, by rintro pool ⟨⟩⟩
      have hcreated := hI.created (discard_sublist.subset hx)
      unfold Host.discard
      split_ifs <;> exact hcreated
  | armed _ heq =>
      subst heq
      refine ⟨hI.created, hI.nodup, ?_⟩
      rintro pool ⟨⟩
      exact poolOk_new
  | scaled pool pool' demand depth hup htarget hpool heq =>
      subst heq
      have hok := hI.pool pool hup
      refine ⟨hI.created, hI.nodup, ?_⟩
      rintro pool₂ ⟨⟩
      refine ⟨inv_step hok.inv hpool, ?_, depth_step hok.depth ?_ hpool, fun x hx => ?_⟩
      · cases hpool
        exact hok.created
      · rintro n ⟨⟩
        exact clamp_le htarget
      · cases hpool
        exact hok.exist x hx
  | served pool pool' b ok _ hup htarget hpool heq =>
      subst heq
      have hok := hI.pool pool hup
      refine ⟨fun x hx => ?_, serve_nodup hI hok hpool, ?_⟩
      · rcases (mem_serve hI.nodup b).mp hx with hmade | ⟨hx, -⟩
        · rw [(made_step hpool hmade).2]
          exact List.mem_cons_self
        · exact created_step hpool (hok.created ▸ hI.created hx)
      · rintro pool₂ ⟨⟩
        have hdepth := depth_step hok.depth (fun n hn => absurd hn (htarget n)) hpool
        refine ⟨inv_step hok.inv hpool, rfl, hdepth, fun x hx => ?_⟩
        refine (mem_serve hI.nodup b).mpr ?_
        rcases (active_step hok.inv hpool x).mp hx with ⟨hactive, hkept⟩ | hstarted
        · exact .inr ⟨hok.exist x hactive, fun hgone => hkept hgone.2⟩
        · exact .inl (made_of_started hstarted)
  | crashed heq =>
      subst heq
      exact ⟨hI.created, hI.nodup, by rintro pool ⟨⟩⟩

/-! ## What a boot brings about -/

/-- Docker answers, starts what it creates, and removes what it is told to. -/
def Answers (_ : Host) : Label → Prop
  | .boot answer => answer.isSome = true
  | .discardOrphan ok => ok = true
  | .pool a ok => ok = true ∧ made a = started a
  | .arm | .scale _ | .crash => True

/-- Nothing is on the host that the executor does not know of. -/
def Exact (h : Host) : Prop :=
  match h.daemon with
  | .down => True
  | .sweeping list => h.containers ⊆ list
  | .up pool => ∀ x ∈ h.containers, Active pool x

theorem exact_step (hI : HostInv cli h) (hE : Exact h) (ha : Answers h a)
    (hstep : step cli h a = some h') : Exact h' := by
  cases step_move hstep with
  | listed list _ hanswer heq =>
      subst heq
      rcases hanswer with ⟨rfl, hperm⟩ | ⟨rfl, rfl⟩
      · exact hperm.symm.subset
      · cases ha
  | swept id list ok hlabel hsweeping heq =>
      subst heq hlabel
      rw [Exact, hsweeping] at hE
      intro x hx
      obtain ⟨hx, hkept⟩ := (mem_discard hI.nodup).mp hx
      rcases List.mem_cons.mp (hE hx) with rfl | hlist
      · exact absurd ⟨ha, rfl⟩ hkept
      · exact hlist
  | armed hsweeping heq =>
      subst heq
      rw [Exact, hsweeping] at hE
      exact fun x hx => absurd (hE hx) List.not_mem_nil
  | scaled pool pool' demand depth hup _ hpool heq =>
      subst heq
      rw [Exact, hup] at hE
      cases hpool
      exact hE
  | served pool pool' b ok hlabel hup _ hpool heq =>
      subst heq hlabel
      rw [Exact, hup] at hE
      intro x hx
      refine (active_step (hI.pool pool hup).inv hpool x).mpr ?_
      rcases (mem_serve hI.nodup b).mp hx with hmade | ⟨hx, hkept⟩
      · exact .inr (ha.2 ▸ hmade)
      · exact .inl ⟨hE x hx, fun hgone => hkept ⟨ha.1, hgone⟩⟩
  | crashed heq =>
      subst heq
      trivial

end Steps

/-! ## Runs -/

section Runs

variable {cli : Autoscale.Cli} {h h' h₁ h₂ : Host} {l l₁ l₂ : List Label} {pool : State}

theorem hostInv_new : HostInv cli .new :=
  ⟨List.Subset.refl _, List.nodup_nil, by rintro pool ⟨⟩⟩

theorem hostInv_run (hI : HostInv cli h) (hrun : Machine.run (step cli) h l = some h') :
    HostInv cli h' :=
  Machine.inv_run (C := fun _ _ => True) (fun _ _ _ hI _ hstep => hostInv_step hI hstep) hI
    (Machine.along_of_forall fun _ _ => trivial) hrun

theorem exact_run (hI : HostInv cli h) (hE : Exact h)
    (hl : Machine.Along (step cli) Answers h l) (hrun : Machine.run (step cli) h l = some h') :
    Exact h' :=
  (Machine.inv_run (I := fun h => HostInv cli h ∧ Exact h)
    (fun _ _ _ hI ha hstep => ⟨hostInv_step hI.1 hstep, exact_step hI.1 hI.2 ha hstep⟩)
    ⟨hI, hE⟩ hl hrun).2

/-- The filler has one new container, or a burst of them to discard. -/
theorem hands_le {t : Nat} (hI : DepthInv t pool) :
    (pool.filler.fresh ++ pool.filler.dropIds).length ≤ burst := by
  have hfits := hI.filler
  cases hf : pool.filler with
  | dropping dropIds target images =>
      rw [hf] at hfits
      exact hfits.2.2
  | pushing id deficit target image images =>
      show 1 ≤ 4
      decide
  | off | sleeping | loaded target | turn target images | looked target len image images
  | filling deficit target image images => exact Nat.zero_le _

/-- The number of containers the pool can have. -/
theorem length_le {t : Nat} {xs : List ContainerId} (hI : DepthInv t pool) (hnd : xs.Nodup)
    (hactive : ∀ x ∈ xs, Active pool x) :
    xs.length ≤ pool.known.length * t + (jobs pool).length + burst := by
  have hsub : xs ⊆ pool.known.flatMap pool.idle ++
      (pool.filler.fresh ++ pool.filler.dropIds) ++ jobs pool := by
    intro x hx
    simp only [List.mem_append, List.mem_flatMap]
    rcases hactive x hx with ⟨image, himage⟩ | hfresh | hdrop | hjob
    · have hknown : image ∈ pool.known := by
        by_contra hne
        rw [hI.known image hne] at himage
        cases himage
      exact .inl (.inl ⟨image, hknown, himage⟩)
    · exact .inl (.inr (.inl hfresh))
    · exact .inl (.inr (.inr hdrop))
    · exact .inr hjob
  have hle := (List.subperm_of_subset hnd hsub).length_le
  have htotal := hI.total
  have hhands := hands_le hI
  rw [List.length_append, List.length_append] at hle
  omega

/-- **Containers.**  Whatever became of earlier executors, and wherever they died: every
container that the pool of the executor has idle, with the filler or with a job is on the
host.  If Docker has answered since no executor was there, there is no other container
with the label, and there are at most as many as the deepest warm target for every image
that was asked for, one for each job and a burst. -/
theorem containers_accounted (hrun₁ : Machine.run (step cli) .new l₁ = some h₁)
    (hdown : h₁.daemon = .down) (hrun₂ : Machine.run (step cli) h₁ l₂ = some h₂)
    (hup : h₂.daemon = .up pool) :
    (∀ x, Active pool x → x ∈ h₂.containers) ∧
      (Machine.Along (step cli) Answers h₁ l₂ →
        (∀ x ∈ h₂.containers, Active pool x) ∧
          h₂.containers.length ≤
            pool.known.length * max cli.warmIdle cli.maxWarm + (jobs pool).length + burst) := by
  have hI₁ := hostInv_run hostInv_new hrun₁
  have hI₂ := hostInv_run hI₁ hrun₂
  have hok := hI₂.pool pool hup
  refine ⟨hok.exist, fun hl => ?_⟩
  have hE : Exact h₂ := by
    refine exact_run hI₁ ?_ hl hrun₂
    rw [Exact, hdown]
    trivial
  rw [Exact, hup] at hE
  exact ⟨hE, length_le hok.depth hI₂.nodup hE⟩

/-- The settings of a small host. -/
def smallHost : Autoscale.Cli :=
  { concurrency := 1, maxConcurrency := 1, warmIdle := 1, maxWarm := 2 }

/-- The executor dies while a job has a container. -/
def killed : List Label :=
  [.boot (some []), .arm] ++ warmed.map (.pool · true) ++ [.crash]

/-- The next one sweeps and runs a job. -/
def restarted : List Label :=
  [ .boot (some ["c1"]), .discardOrphan true, .arm, .scale 5
  , .pool (.acquire "alpine:3.20") true, .pool (.insertKnown 0) true, .pool (.pop 0) true
  , .pool (.create 0 (.started "c2")) true ]

/-- `containers_accounted` for that restart. -/
theorem containers_accounted_restarted : ∃ h₁ h₂ pool,
    Machine.run (step smallHost) .new killed = some h₁ ∧ h₁.containers = ["c1"] ∧
      Machine.run (step smallHost) h₁ restarted = some h₂ ∧ h₂.daemon = .up pool ∧
        h₂.containers = ["c2"] ∧ Active pool "c2" := by
  refine ⟨_, _, _, rfl, rfl, rfl, rfl, rfl, ?_⟩
  have haccounted := @containers_accounted smallHost _ _ killed restarted _ rfl rfl rfl rfl
  refine (haccounted.2 (Machine.along_of_mem fun a ha h => ?_)).1 "c2" (List.mem_singleton_self _)
  simp only [restarted, List.mem_cons, List.not_mem_nil, or_false] at ha
  rcases ha with rfl | rfl | rfl | rfl | rfl | rfl | rfl | rfl <;> simp [Answers, made, started]

end Runs

end Dokan.Ports.DockerHost
