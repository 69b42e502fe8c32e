import Dokan.Ports.FlowOutcome

/-!
# How long a flow run can last

Every pass that comes back to the head of the loop has taken something off the
ledger: a row is finished, or a map step has been given its children.  `life`
counts what is left of a row in this sense, and `room` bounds the statements a
pass may need for it; a pending map step counts for the children it may get.

## Main results

* `sum_write` — a legal statement raises neither, and a decision of a pass
  lowers the first.
* `rank_pass_le` — the room of a ledger bounds the pass over it.
* `movesLeft_step` — an undisturbed driver takes a bounded number of steps.
-/

namespace Dokan.Ports.FlowMeasure

open Dokan.Verified
open Dokan.Verified.Json
open Dokan.Ports.FlowRow
open Dokan.Ports.FlowSpec
open Dokan.Ports.FlowEval
open Dokan.Ports.FlowDriver
open Dokan.Ports.FlowLedger
open Dokan.Ports.FlowMoves
open Dokan.Ports.FlowRank
open Dokan.Ports.FlowProgress
open Dokan.Ports.FlowOutcome

/-! ## What is left of a ledger -/

/-- The step may still be given children. -/
def Unexpanded (s : FlowStep) : Prop := s.status = .pending ∧ s.mapRef.isSome = true

instance (s : FlowStep) : Decidable (Unexpanded s) := inferInstanceAs (Decidable (_ ∧ _))

/-- The statements `run_step` may need for a step. -/
def stepRoom (retries : Option Int) : Nat := 5 * stepAttempts retries + 9

/-- How often a row may still be finished or given children. -/
def life (s : FlowStep) : Nat :=
  if Unexpanded s then maxMapFanout + 2 else if s.status.active then 1 else 0

/-- The statements a pass may need for a row. -/
def room (s : FlowStep) : Nat :=
  stepRoom s.retries + if Unexpanded s then maxMapFanout * stepRoom none else 0

def lifeSum (steps : List FlowStep) : Nat := (steps.map life).sum

def roomSum (steps : List FlowStep) : Nat := (steps.map room).sum

variable {base steps : List FlowStep} {w : Write} {s : FlowStep} {now : Nat}

theorem life_of_active (h : s.status.active = true) : 1 ≤ life s := by
  unfold life
  split_ifs
  · omega
  · exact Nat.le_refl _

theorem life_of_inactive (h : s.status.active = false) : life s = 0 := by
  unfold life
  rw [if_neg, if_neg]
  · simp [h]
  · rintro ⟨hpend, _⟩
    rw [hpend] at h
    cases h

theorem room_of_not_pending (h : s.status ≠ .pending) : room s = stepRoom s.retries := by
  rw [room, if_neg fun hu => h hu.1, Nat.add_zero]

/-- A statement that does not make its row pending gives it no room. -/
theorem room_row (h : (Write.row now w s).status ≠ .pending) :
    room (Write.row now w s) = stepRoom s.retries := by
  rw [room_of_not_pending h]
  cases w <;> rfl

theorem stepRoom_le_room (s : FlowStep) : stepRoom s.retries ≤ room s :=
  Nat.le_add_right _ _

/-- The children of a fan-out. -/
theorem sum_children (p : FlowStep) (items : List Value) :
    lifeSum ((mapChildren p items).map (childRow p.cache)) = items.length ∧
      roomSum ((mapChildren p items).map (childRow p.cache)) =
        items.length * stepRoom none := by
  have hlife : ∀ x : Value × Nat, life (childOf p x.2 x.1) = 1 := fun _ => rfl
  have hroom : ∀ x : Value × Nat, room (childOf p x.2 x.1) = stepRoom none := fun _ => rfl
  rw [rows_mapChildren]
  constructor
  · simp [lifeSum, Function.comp_def, hlife]
  · simp [roomSum, Function.comp_def, hroom]

/-- What a legal statement does to the life and the room of its row. -/
theorem row_write (now : Nat) (h : LegalAt base steps s w) :
    lifeSum (Write.rows w) + life (Write.row now w s) + (if decides w then 1 else 0) ≤
        life s ∧
      roomSum (Write.rows w) + room (Write.row now w s) ≤ room s := by
  cases w with
  | setRunning id runId =>
      refine ⟨?_, ?_⟩
      · have hact : s.status.active = true := by
          rcases h.1 with h | h
          · rw [h]
            rfl
          · rw [h]
            rfl
        exact life_of_active hact
      · rw [room_row fun h => (by cases h)]
        simpa [Write.rows, roomSum] using stepRoom_le_room s
  | finish id status output =>
      have hinactive : (Write.row now (.finish id status output) s).status.active =
          false := by
        rcases h.1 with rfl | rfl
        · rfl
        · rfl
      refine ⟨?_, ?_⟩
      · rw [life_of_inactive hinactive]
        simpa [Write.rows, lifeSum, decides] using life_of_active h.2.1
      · have hne : (Write.row now (.finish id status output) s).status ≠ .pending := by
          intro h
          rw [h] at hinactive
          cases hinactive
        rw [room_row hne]
        simpa [Write.rows, roomSum] using stepRoom_le_room s
  | skip id =>
      have hpend : s.status = .pending := h
      refine ⟨?_, ?_⟩
      · rw [life_of_inactive rfl]
        simpa [Write.rows, lifeSum, decides] using life_of_active (by rw [hpend]; rfl)
      · rw [room_row fun h => (by cases h)]
        simpa [Write.rows, roomSum] using stepRoom_le_room s
  | expand parent children cache =>
      obtain ⟨hpend, _, hmap, _, items, _, hcap, rfl, rfl⟩ := h
      have hun : Unexpanded s := ⟨hpend, Option.isSome_iff_ne_none.mpr hmap⟩
      have hle : items.length ≤ maxMapFanout := by simpa [fanoutWithinCap] using hcap
      obtain ⟨hlife, hroom⟩ := sum_children s items
      refine ⟨?_, ?_⟩
      · have hone : life (Write.row now (.expand parent (mapChildren s items) s.cache) s) =
            1 := rfl
        rw [hone, Write.rows, hlife, life, if_pos hun]
        simp only [decides, if_true]
        omega
      · rw [room_row fun h => (by cases h), Write.rows, hroom, room, if_pos hun]
        have hmul := Nat.mul_le_mul_right (stepRoom none) hle
        omega
  | compensated id =>
      have hlife : life (Write.row now (.compensated id) s) = life s := rfl
      have hroom : room (Write.row now (.compensated id) s) = room s := rfl
      rw [hlife, hroom]
      simp [Write.rows, lifeSum, roomSum, decides]

/-- A sum over the rows, after a legal statement. -/
theorem sum_apply (now : Nat) (g : FlowStep → Nat) (hL : Ledger base steps)
    (hbase : NoHash base) (hw : Legal base steps w) (hs : s ∈ steps) (hid : s.stepId = w.id) :
    ((w.apply now steps).map g).sum + g s =
      (steps.map g).sum + ((Write.rows w).map g).sum + g (Write.row now w s) := by
  have hnd : ((steps ++ Write.rows w).map FlowStep.stepId).Nodup := by
    have h' : Ledger base (w.apply now steps) := hL.write hbase hw
    have h := h'.nodup
    rwa [apply_legal hL hbase hw, Rows.map_update (stepId_row w)] at h
  have h := Rows.sum_update (f := Write.row now w) (g := g) hnd (List.mem_append_left _ hs)
  rw [hid] at h
  rw [apply_legal hL hbase hw, h, List.map_append, List.sum_append]

/-- `mark_step_compensated` changes no sum. -/
theorem sum_mark {g : FlowStep → Nat} {id : String}
    (hg : ∀ s : FlowStep, g { s with compensated := true } = g s) :
    (((Write.compensated id).apply now steps).map g).sum = (steps.map g).sum := by
  have h : ((Write.compensated id).apply now steps).map g = steps.map g :=
    Rows.map_update fun s => hg s
  rw [h]

theorem sum_write (now : Nat) (hL : Ledger base steps) (hbase : NoHash base)
    (hw : Legal base steps w) :
    lifeSum (w.apply now steps) + (if decides w then 1 else 0) ≤ lifeSum steps ∧
      roomSum (w.apply now steps) ≤ roomSum steps := by
  rcases hw with ⟨id, rfl⟩ | ⟨s, hs, hid, hat⟩
  · exact ⟨Nat.le_of_eq (sum_mark fun _ => rfl), Nat.le_of_eq (sum_mark fun _ => rfl)⟩
  · obtain ⟨hlife, hroom⟩ := row_write now hat
    have hl := sum_apply now life hL hbase (.inr ⟨s, hs, hid, hat⟩) hs hid
    have hr := sum_apply now room hL hbase (.inr ⟨s, hs, hid, hat⟩) hs hid
    simp only [lifeSum, roomSum] at hlife hroom ⊢
    omega

/-! ## One pass -/

variable {parse : String → Option Value} {input : Value}

theorem length_le_roomSum (l : List FlowStep) : 9 * l.length ≤ roomSum l := by
  induction l with
  | nil => exact Nat.le_refl _
  | cons x l ih =>
      have hx := stepRoom_le_room x
      simp only [roomSum, stepRoom, List.map_cons, List.sum_cons, List.length_cons]
        at ih hx ⊢
      omega

theorem roomSum_filter_le (p : FlowStep → Bool) (l : List FlowStep) :
    roomSum (l.filter p) ≤ roomSum l :=
  (List.filter_sublist.map room).sum_le_sum fun _ _ => Nat.zero_le _

/-- The statements of the loop over the pending steps, and of the tasks it
spawns. -/
theorem actions_le (parse : String → Option Value) (input : Value)
    (steps l : List FlowStep) :
    ((l.map (action parse input steps)).filterMap Action.write?).length +
      tasksRank (((l.map (action parse input steps)).filterMap Action.run?).map
        Ready.task) ≤ roomSum l := by
  induction l with
  | nil => exact Nat.le_refl _
  | cons x l ih =>
      have hx := stepRoom_le_room x
      simp only [roomSum, stepRoom] at ih hx ⊢
      rw [List.map_cons, List.map_cons, List.sum_cons]
      cases hact : action parse input steps x with
      | wait =>
          simp only [List.filterMap_cons, Action.write?, Action.run?]
          omega
      | write w =>
          simp only [List.filterMap_cons, Action.write?, Action.run?, List.length_cons]
          omega
      | run r =>
          have hstep : r.step = x := by
            simp only [action] at hact
            split_ifs at hact
            split at hact
            · cases hact
            · cases hact
              rfl
          have hcons : ∀ ts, tasksRank (r.task :: ts) =
              5 * stepAttempts x.retries + 8 + tasksRank ts := by
            intro ts
            rw [← hstep]
            rfl
          simp only [List.filterMap_cons, Action.write?, Action.run?, List.map_cons, hcons]
          omega

/-- **The room of a ledger bounds the pass over it.** -/
theorem rank_pass_le (parse : String → Option Value) (input : Value)
    (steps : List FlowStep) :
    rank (pass parse input steps) ≤ roomSum steps + 3 := by
  have hlen := length_le_roomSum steps
  rcases pass_cases parse input steps with
    ⟨_, h⟩ | ⟨_, ⟨_, h⟩ | ⟨_, ws, toRun, h, ⟨rfl, rfl, _⟩ | ⟨_, rfl, rfl⟩⟩⟩
  · have hle : (toCompensate steps).length ≤ steps.length := by
      rw [toCompensate, List.length_insertionSort]
      exact List.length_filter_le _ _
    have hrank := rank_compensate_le (toCompensate steps) 0
    rw [h]
    omega
  · rw [h]
    simp only [rank]
    omega
  · have hle : (aggregates steps).length ≤ steps.length :=
      Nat.le_trans (List.length_filterMap_le _ _) (List.length_filter_le _ _)
    rw [h]
    simp only [rank, tasksRank, List.map_nil, List.sum_nil]
    omega
  · have hle := actions_le parse input steps
      (steps.filter fun s => s.status = .pending)
    have hfilter := roomSum_filter_le (fun s => s.status = .pending) steps
    rw [h]
    simp only [rank, actions]
    omega

/-! ## A whole run -/

/-- The statements that are left of a flow run whose passes take less than `B`
each. -/
def movesLeft (B : Nat) (s : Flow) : Nat :=
  match s.pc with
  | .off => if s.status = .pending then (lifeSum s.steps + 1) * B + 1 else 0
  | .top => (lifeSum s.steps + 1) * B
  | .writing _ _ _ p => (lifeSum s.steps + p.toNat) * B + rank s.pc
  | .await _ tasks => (lifeSum s.steps + (tasks.any Task.isDone).toNat) * B + rank s.pc
  | pc => rank pc

variable {s s' : Flow} {B : Nat} {snap : List FlowStep} {tasks : List Task}

theorem movesLeft_top (h : s.pc = .top) : movesLeft B s = (lifeSum s.steps + 1) * B := by
  simp only [movesLeft, h]

theorem movesLeft_writing {ws : List Write} {toRun : List Ready} {p : Bool}
    (h : s.pc = .writing snap ws toRun p) :
    movesLeft B s = (lifeSum s.steps + p.toNat) * B +
      (ws.length + tasksRank (toRun.map Ready.task) + 2) := by
  simp only [movesLeft, h, rank]

theorem movesLeft_await (h : s.pc = .await snap tasks) :
    movesLeft B s = (lifeSum s.steps + (tasks.any Task.isDone).toNat) * B +
      (tasksRank tasks + 1) := by
  simp only [movesLeft, h, rank]

/-- After the last decision, when something was decided. -/
theorem afterWrites_cases (snap : List FlowStep) {toRun : List Ready} {p : Bool}
    (h : toRun ≠ [] ∨ p = true) :
    toRun ≠ [] ∧ afterWrites snap toRun p = .await snap (toRun.map Ready.task) ∨
      toRun = [] ∧ p = true ∧ afterWrites snap toRun p = .top := by
  cases toRun with
  | cons r toRun => exact .inl ⟨by simp, rfl⟩
  | nil =>
      have hp : p = true := h.resolve_left fun hne => hne rfl
      subst hp
      exact .inr ⟨rfl, rfl, rfl⟩

/-- A task that is not over does not make progress by moving on. -/
theorem any_isDone_set {i : Nat} {t : Task} {pc : TaskPc}
    (hids : (tasks.map Task.id).Nodup) (ht : tasks[i]? = some t) (hdone : pc ≠ .done)
    (h : (tasks.set i { t with pc }).any Task.isDone = true) :
    tasks.any Task.isDone = true := by
  obtain ⟨t', ht', hd⟩ := List.any_eq_true.mp h
  rcases Rows.mem_set hids ht ht' with rfl | ⟨ht', _⟩
  · rw [isDone_eq_false hdone] at hd
    cases hd
  · exact List.any_eq_true.mpr ⟨t', ht', hd⟩

theorem toNat_le {a b : Bool} (h : a = true → b = true) : a.toNat ≤ b.toNat := by
  cases a with
  | false => exact Nat.zero_le _
  | true => rw [h rfl]

/-- **One step of an undisturbed driver.** -/
theorem movesLeft_step {a : Label} (hP : Progress base s)
    (hvalid : ValidLedger base) (hoff : s.pc = .off → s.status ≠ .running)
    (hB : roomSum s.steps + 4 ≤ B) (hsteady : steady a = true)
    (h : step parse s a = some s') :
    roomSum s'.steps + 4 ≤ B ∧
      movesLeft B s' + (if moves a then 1 else 0) ≤ movesLeft B s := by
  have hbase : NoHash base := hvalid.noHash
  have hL := hP.inv.ledger
  have hok := hP.inv.pc
  have hpc := hP.pc
  unfold PcProgress at hpc
  -- a step that leaves the ledger alone
  have hquiet : s'.steps = s.steps →
      movesLeft B s' + (if moves a then 1 else 0) ≤ movesLeft B s →
      roomSum s'.steps + 4 ≤ B ∧
        movesLeft B s' + (if moves a then 1 else 0) ≤ movesLeft B s := by
    intro hsteps hle
    rw [hsteps]
    exact ⟨hB, hle⟩
  cases step_move h with
  | tick d => exact hquiet rfl (Nat.le_refl _)
  | claim hoff' hpend =>
      refine hquiet rfl ?_
      rw [movesLeft_top rfl]
      simp only [movesLeft, hoff', hpend, moves, if_true]
      exact Nat.le_refl _
  | reap hoff' hrun => exact absurd hrun (hoff hoff')
  | crash hon => cases hsteady
  | pass htop =>
      refine hquiet rfl ?_
      have hrank := rank_pass_le parse s.input s.steps
      have hmul : lifeSum s.steps * B + B = (lifeSum s.steps + 1) * B := by ring
      rw [movesLeft_top htop]
      simp only [moves, if_true]
      rcases pass_cases parse s.input s.steps with
        ⟨_, heq⟩ | ⟨_, ⟨_, heq⟩ | ⟨_, ws, toRun, heq, _⟩⟩
      · rw [heq] at hrank ⊢
        simp only [movesLeft, Flow.goto]
        omega
      · rw [heq] at hrank ⊢
        simp only [movesLeft, Flow.goto]
        omega
      · rw [heq] at hrank ⊢
        rw [movesLeft_writing rfl]
        simp only [Flow.goto, Bool.toNat_false, Nat.add_zero]
        simp only [rank] at hrank
        omega
  | readError htop => cases hsteady
  | @write snap w ws toRun p hpc' =>
      rw [hpc'] at hpc hok
      have hdec := (Decided.target hpc w List.mem_cons_self).1
      obtain ⟨hlife, hroom⟩ := sum_write s.now hL hbase (Writing.tail hok).1
      rw [hdec, if_pos rfl] at hlife
      have hmul := Nat.mul_le_mul_right B (Nat.le_trans hlife (Nat.le_add_right _ p.toNat))
      refine ⟨Nat.le_trans (Nat.add_le_add_right hroom 4) hB, ?_⟩
      rw [movesLeft_writing hpc', movesLeft_writing rfl, List.length_cons]
      simp only [Flow.write, Bool.toNat_true, moves, if_true]
      omega
  | writeError hpc' => cases hsteady
  | @wrote snap toRun p hpc' =>
      refine hquiet rfl ?_
      rw [hpc'] at hpc
      have htodo := (Decided.todo hpc).resolve_left fun hne => hne rfl
      rw [movesLeft_writing hpc']
      rcases afterWrites_cases snap htodo with ⟨_, heq⟩ | ⟨rfl, rfl, heq⟩
      · rw [heq, movesLeft_await rfl]
        have hnone : (toRun.map Ready.task).any Task.isDone = false := by
          rw [List.any_map, List.any_eq_false]
          intro r _ hd
          cases hd
        have hmul := Nat.mul_le_mul_right B (Nat.le_add_right (lifeSum s.steps) p.toNat)
        simp only [Flow.goto, hnone, Bool.toNat_false, Nat.add_zero, moves, if_true]
        omega
      · rw [heq, movesLeft_top rfl]
        simp only [Flow.goto, Bool.toNat_true, moves, if_true]
        omega
  | @join snap tasks hpc' hdone =>
      refine hquiet rfl ?_
      rw [hpc'] at hpc
      obtain ⟨t, ht⟩ := List.exists_mem_of_ne_nil tasks (Joining.nonempty hpc)
      have hany : tasks.any Task.isDone = true :=
        List.any_eq_true.mpr ⟨t, ht, List.all_eq_true.mp hdone t ht⟩
      rw [movesLeft_await hpc', movesLeft_top rfl, hany]
      simp only [Flow.goto, Bool.toNat_true, moves, if_true]
      omega
  | wake hidle =>
      rw [hidle] at hpc
      exact hpc.elim
  | compensated hpc' =>
      refine hquiet rfl ?_
      simp [movesLeft, hpc', moves, Flow.goto, rank]
  | comp hpc' hcomp =>
      have hrank := rank_comp hcomp
      obtain ⟨⟨todo', failed', stage', hpc''⟩, _, _, hsteps⟩ := compStep_cases hcomp
      rw [hpc''] at hrank
      refine ⟨?_, ?_⟩
      · rcases hsteps with hsteps | hsteps
        · rw [hsteps]
          exact hB
        · rw [hsteps, roomSum, sum_mark fun _ => rfl]
          exact hB
      · simp only [movesLeft, hpc', hpc'', moves, if_true]
        exact hrank
  | finish hpc' =>
      refine hquiet rfl ?_
      rw [hpc'] at hpc
      have hne : ∀ {status : FlowStatus}, ended status → status ≠ .pending := by
        rintro status (rfl | rfl | rfl) <;> decide
      simp [movesLeft, hpc', moves, rank, hne hpc.2]
  | finishError hpc' => cases hsteady
  | finishLost hpc' => cases hsteady
  | record hpc' =>
      rw [hpc'] at hpc
      exact hpc.elim
  | recordError hpc' => cases hsteady
  | @task i reply snap tasks t pc hpc' ht hstep =>
      refine hquiet rfl ?_
      rw [hpc'] at hok
      have herr : reply.isError = false := by simpa [steady] using hsteady
      have hle := any_isDone_set (Awaiting.ids hok) ht (quiet_not_done hstep herr)
      have hrank := tasksRank_set ht (taskRank_lt hstep)
      have hmul := Nat.mul_le_mul_right B (Nat.add_le_add_left (toNat_le hle)
        (lifeSum s.steps))
      rw [movesLeft_await hpc', movesLeft_await rfl]
      simp only [Flow.goto, moves, if_true]
      omega
  | @taskWrite i reply snap tasks t pc w hpc' ht hstep =>
      rw [hpc'] at hok
      have hrun := Awaiting.runnable hok t (List.mem_of_getElem? ht) (isDone_of_step hstep)
      have hrank := tasksRank_set ht (taskRank_lt hstep)
      rw [movesLeft_await hpc', movesLeft_await rfl]
      obtain ⟨_, heq | ⟨k, r, rfl, heq⟩ | ⟨status, output, rfl, hst, heq⟩⟩ :=
        taskStep_cases hstep
      · cases heq
      · cases heq
        obtain ⟨hlife, hroom⟩ := sum_write s.now hL hbase (hrun.setRunning r)
        have hle : (tasks.set i { t with pc := .exec k r }).any Task.isDone = true →
            tasks.any Task.isDone = true :=
          any_isDone_set (Awaiting.ids hok) ht fun heq => (by cases heq)
        have hlife' : lifeSum ((Write.setRunning t.step.stepId r).apply s.now s.steps) ≤
            lifeSum s.steps := Nat.le_trans (Nat.le_add_right _ _) hlife
        have hmul := Nat.mul_le_mul_right B (Nat.add_le_add hlife' (toNat_le hle))
        refine ⟨Nat.le_trans (Nat.add_le_add_right hroom 4) hB, ?_⟩
        simp only [Flow.write, moves, if_true]
        omega
      · cases heq
        obtain ⟨hlife, hroom⟩ := sum_write s.now hL hbase (hrun.finish hst output)
        have hone := Nat.add_le_add_left
          (Bool.toNat_le ((tasks.set i { t with pc := .done }).any Task.isDone))
          (lifeSum ((Write.finish t.step.stepId status output).apply s.now s.steps))
        have hmul := Nat.mul_le_mul_right B (Nat.le_trans (Nat.le_trans hone hlife)
          (Nat.le_add_right _ (tasks.any Task.isDone).toNat))
        refine ⟨Nat.le_trans (Nat.add_le_add_right hroom 4) hB, ?_⟩
        simp only [Flow.write, moves, if_true]
        omega

end Dokan.Ports.FlowMeasure
