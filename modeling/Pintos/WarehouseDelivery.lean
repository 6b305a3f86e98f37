import Pintos.WarehouseRun

/-!
# The life cycle of a delivery

Every robot goes once through `empty`, `loaded` and `completed`.  Only its own
executions change it, and what one execution can do is said once (`Advance`):
nothing, load on the item's cell, or unload on the destination's.  The facts about
whole runs follow by induction over the run.
-/

namespace Pintos.Warehouse

variable {n : Nat}

/-! ## Stages -/

/-- How far a delivery has come. -/
inductive Stage where
  | empty
  | loaded
  | completed
  deriving DecidableEq, Repr

/-- The stages in their order. -/
def Stage.rank : Stage → Nat
  | .empty => 0
  | .loaded => 1
  | .completed => 2

def Robot.stage (r : Robot) : Stage :=
  if r.taskCompleted then .completed else if r.currentPayload = 0 then .empty else .loaded

theorem stage_eq_completed {r : Robot} : r.stage = .completed ↔ r.taskCompleted = true := by
  unfold Robot.stage
  cases r.taskCompleted with
  | true => exact ⟨fun _ => rfl, fun _ => rfl⟩
  | false => by_cases h : r.currentPayload = 0 <;> simp [h]

theorem stage_eq_empty {r : Robot} :
    r.stage = .empty ↔ r.taskCompleted = false ∧ r.currentPayload = 0 := by
  unfold Robot.stage
  cases r.taskCompleted with
  | true => simp
  | false => by_cases h : r.currentPayload = 0 <;> simp [h]

theorem stage_eq_loaded {r : Robot} :
    r.stage = .loaded ↔ r.taskCompleted = false ∧ r.currentPayload ≠ 0 := by
  unfold Robot.stage
  cases r.taskCompleted with
  | true => simp
  | false => by_cases h : r.currentPayload = 0 <;> simp [h]

/-! ## One robot and its task -/

/-- A task whose item is `1` to `9`. -/
def ProperItem (task : Int × Int) : Prop := 1 ≤ task.1 ∧ task.1 ≤ 9

/-- **The robot carries out the task**: its orders are the task's, and it holds
nothing or one full load, and nothing once it is done. -/
structure Carries (task : Int × Int) (r : Robot) : Prop where
  item : r.requiredItem = task.1
  destination : r.destination = task.2
  required : r.requiredPayload = task.1
  payload : r.currentPayload = 0 ∨ r.currentPayload = task.1
  completed : r.taskCompleted = true → r.currentPayload = 0

theorem carries_startRobot {task : Int × Int} (h : ProperItem task) :
    Carries task (startRobot task.1 task.2) where
  item := by
    obtain ⟨h1, h9⟩ := h
    show toChar task.1 = task.1
    unfold toChar
    omega
  destination := rfl
  required := rfl
  payload := Or.inl rfl
  completed h := by cases h

/-- **What one execution can do** to a robot. -/
inductive Advance (task : Int × Int) (r r' : Robot) : Prop
  /-- It keeps its load; a robot that is done does not change at all. -/
  | stay (payload : r'.currentPayload = r.currentPayload)
      (done : r'.taskCompleted = r.taskCompleted) (idle : r.taskCompleted = true → r' = r)
  /-- It loads, on the cell of its item. -/
  | load (before : r.stage = .empty) (after : r'.stage = .loaded)
      (pos : r'.pos = getItemPosition (task.1 + chr '0'))
  /-- It unloads, on the cell of its destination. -/
  | deliver (before : r.stage = .loaded) (after : r'.stage = .completed)
      (pos : r'.pos = getDestinationPosition task.2)

namespace Carries
variable {task : Int × Int} {r : Robot}

theorem itemPosition (h : Carries task r) (hitem : ProperItem task) :
    r.itemPosition = getItemPosition (task.1 + chr '0') := by
  obtain ⟨h1, h9⟩ := hitem
  have hchr : chr '0' = 48 := rfl
  have hchar : toChar (task.1 + chr '0') = task.1 + chr '0' := by
    unfold toChar
    omega
  rw [Robot.itemPosition, h.item, hchar]

theorem moved (h : Carries task r) (p : Int × Int) :
    Carries task { r with row := p.1, col := p.2 } :=
  ⟨h.item, h.destination, h.required, h.payload, h.completed⟩

theorem loadOrUnload (h : Carries task r) (hopen : r.taskCompleted = false) :
    Carries task (Warehouse.loadOrUnload r) := by
  unfold Warehouse.loadOrUnload
  split
  · refine ⟨h.item, h.destination, h.required, Or.inr h.required, fun hdone => ?_⟩
    exact absurd (hdone.symm.trans hopen) (by decide)
  · split
    · exact ⟨h.item, h.destination, h.required, Or.inl rfl, fun _ => rfl⟩
    · exact h

/-- The load and unload check after a move advances the delivery by one stage at
most. -/
theorem advance (h : Carries task r) (hitem : ProperItem task) (hopen : r.taskCompleted = false)
    (p : Int × Int) :
    Advance task r (Warehouse.loadOrUnload { r with row := p.1, col := p.2 }) := by
  unfold Warehouse.loadOrUnload
  split
  · rename_i hload
    refine .load (stage_eq_empty.mpr ⟨hopen, hload.1⟩) (stage_eq_loaded.mpr ⟨hopen, ?_⟩) ?_
    · show r.requiredPayload ≠ 0
      have := hitem.1
      rw [h.required]
      omega
    · exact hload.2.trans (h.itemPosition hitem)
  · split
    · rename_i hunload
      have hpayload : r.currentPayload > 0 := hunload.1
      refine .deliver (stage_eq_loaded.mpr ⟨hopen, by omega⟩) (stage_eq_completed.mpr rfl) ?_
      exact hunload.2.trans (congrArg getDestinationPosition h.destination)
    · exact .stay rfl rfl fun hdone => absurd (hdone.symm.trans hopen) (by decide)

end Carries

namespace Advance
variable {task : Int × Int} {r r' : Robot}

theorem refl (task : Int × Int) (r : Robot) : Advance task r r := .stay rfl rfl fun _ => rfl

theorem stage_of_stay (hp : r'.currentPayload = r.currentPayload)
    (hd : r'.taskCompleted = r.taskCompleted) : r'.stage = r.stage := by
  rw [Robot.stage, Robot.stage, hp, hd]

section
variable (h : Advance task r r')
include h

theorem rank_le : r.stage.rank ≤ r'.stage.rank := by
  cases h with
  | stay hp hd _ => rw [stage_of_stay hp hd]
  | load hb ha _ | deliver hb ha _ => rw [hb, ha]; decide

/-- A robot that changes its stage has fewer stages to come. -/
theorem left_lt (hne : r'.stage ≠ r.stage) :
    2 - r'.stage.rank < 2 - r.stage.rank := by
  cases h with
  | stay hp hd _ => exact absurd (stage_of_stay hp hd) hne
  | load hb ha _ | deliver hb ha _ => rw [hb, ha]; decide

/-- A robot that is done does not change. -/
theorem eq_of_completed (hdone : r.taskCompleted = true) : r' = r := by
  have hstage := stage_eq_completed.mpr hdone
  cases h with
  | stay _ _ hidle => exact hidle hdone
  | load hb _ _ | deliver hb _ _ => exact absurd (hb.symm.trans hstage) (by decide)

/-- A robot becomes loaded only by loading. -/
theorem of_loaded (hb : r.stage ≠ .loaded) (ha : r'.stage = .loaded) :
    r.stage = .empty ∧ r'.pos = getItemPosition (task.1 + chr '0') := by
  cases h with
  | stay hp hd _ => exact absurd ((stage_of_stay hp hd).symm.trans ha) hb
  | load hb _ hpos => exact ⟨hb, hpos⟩
  | deliver _ ha' _ => exact absurd (ha.symm.trans ha') (by decide)

/-- A robot becomes completed only by delivering. -/
theorem of_completed (hb : r.stage ≠ .completed) (ha : r'.stage = .completed) :
    r.stage = .loaded ∧ r'.pos = getDestinationPosition task.2 := by
  cases h with
  | stay hp hd _ => exact absurd ((stage_of_stay hp hd).symm.trans ha) hb
  | load _ ha' _ => exact absurd (ha.symm.trans ha') (by decide)
  | deliver hb _ hpos => exact ⟨hb, hpos⟩

end

end Advance

/-! ## Steps -/

/-- A move changes nothing but the cell the robot stands on. -/
theorem move_eq (robots : Fin n → Robot) (r : Robot) (d : Command) :
    ∃ p : Int × Int, moveRobotOneStepByDirection robots r d =
      { r with row := p.1, col := p.2 } := by
  unfold moveRobotOneStepByDirection
  split
  · exact ⟨r.pos, rfl⟩
  · simp only
    split
    · exact ⟨r.pos, rfl⟩
    · exact ⟨_, rfl⟩

variable {s s' : State n}

/-- **What one step does to a robot**: nothing, unless it is the robot's own
execution. -/
theorem robot_step {e : Event n} (h : Inv s) (hs : Step s e s') (i : Fin n) :
    s'.central.robot i = s.central.robot i ∨
    ((s.central.robot i).taskCompleted = false ∧ ∃ p : Int × Int,
      s'.central.robot i = loadOrUnload { s.central.robot i with row := p.1, col := p.2 }) := by
  cases hs with
  | shutdown c hall | command c hall =>
    have hsafe : c.Safe := h
    rw [hsafe.readStatuses_eq]
    exact Or.inl rfl
  | finish c start cmds => exact Or.inl rfl
  | execute c start cmds pending j hj =>
    show (c.executeRobot cmds j).robot i = c.robot i ∨ _
    rw [robot_executeRobot]
    split
    · rename_i hij
      subst hij
      unfold executeCommand
      split
      · exact Or.inl rfl
      · rename_i hopen
        obtain ⟨p, hmove⟩ := move_eq c.robot (c.robot j) (cmds.get j)
        rw [hmove]
        exact Or.inr ⟨Bool.eq_false_iff.mpr hopen, p, rfl⟩
    · exact Or.inl rfl

/-- Every robot carries out its task, in every reachable state. -/
theorem carries_reachable {tasks : Fin n → Int × Int} (hitem : ∀ i, ProperItem (tasks i))
    {s : State n} (h : (system tasks).Reachable s) (i : Fin n) :
    Carries (tasks i) (s.central.robot i) := by
  induction h with
  | init h =>
    subst h
    rw [show (Central.start tasks).robot i = startRobot (tasks i).1 (tasks i).2 from
      get_ofFn_fin _ i]
    exact carries_startRobot (hitem i)
  | step hreach hs ih =>
    rcases robot_step (inv_reachable hreach) hs i with heq | ⟨hopen, p, heq⟩
    · rw [heq]
      exact ih
    · rw [heq]
      exact (ih.moved p).loadOrUnload hopen

/-- Every step of a run advances every robot by one stage at most. -/
theorem advance_step {tasks : Fin n → Int × Int} (hitem : ∀ i, ProperItem (tasks i)) {e : Event n}
    (h : (system tasks).Reachable s) (hs : Step s e s') (i : Fin n) :
    Advance (tasks i) (s.central.robot i) (s'.central.robot i) := by
  rcases robot_step (inv_reachable h) hs i with heq | ⟨hopen, p, heq⟩
  · rw [heq]
    exact .refl _ _
  · rw [heq]
    exact (carries_reachable hitem h i).advance (hitem i) hopen p

/-- A robot that is done is sent `WAIT`. -/
theorem command_step (h : Inv s) (hs : Step s .command s') {i : Fin n}
    (hdone : (s.central.robot i).taskCompleted = true) {start : Vector Robot n}
    {cmds : Vector Command n} {pending : List (Fin n)}
    (hphase : s'.phase = .executing start cmds pending) : cmds.get i = .wait := by
  cases hs with
  | command c hall =>
    have hsafe : c.Safe := h
    rw [hsafe.readStatuses_eq] at hphase
    injection hphase with _ hcmds _
    rw [← hcmds]
    exact hsafe.command_completed hdone

/-- The power goes off only when every task is done. -/
theorem shutdown_step (h : Inv s) (hs : Step s .shutdown s') (i : Fin n) :
    (s.central.robot i).taskCompleted = true ∧ (s.central.robot i).currentPayload = 0 := by
  cases hs with
  | shutdown c hall =>
    have hsafe : c.Safe := h
    rw [hsafe.readStatuses_eq, Central.allCompleted, List.all_eq_true] at hall
    exact of_decide_eq_true (hall i (List.mem_finRange i))

/-! ## Runs -/

section Run
variable {tasks : Fin n → Int × Int} {N : Nat} {state : Nat → State n} {label : Nat → Event n}

/-- Robot `i` loads in step `t`. -/
def LoadsAt (state : Nat → State n) (i : Fin n) (t : Nat) : Prop :=
  ((state t).central.robot i).stage = .empty ∧ ((state (t + 1)).central.robot i).stage = .loaded

/-- Robot `i` delivers in step `t`. -/
def DeliversAt (state : Nat → State n) (i : Fin n) (t : Nat) : Prop :=
  ((state t).central.robot i).stage = .loaded ∧
    ((state (t + 1)).central.robot i).stage = .completed

section
variable (hitem : ∀ i, ProperItem (tasks i)) (hrun : (system tasks).Run N state label)
include hitem hrun

theorem advance_run {t : Nat} (ht : t < N) (i : Fin n) :
    Advance (tasks i) ((state t).central.robot i) ((state (t + 1)).central.robot i) :=
  advance_step hitem (hrun.reachable (by omega)) (hrun.step t ht) i

/-- **The stages only go up.** -/
theorem rank_run (i : Fin n) {t u : Nat} (htu : t ≤ u) (hu : u ≤ N) :
    ((state t).central.robot i).stage.rank ≤ ((state u).central.robot i).stage.rank := by
  refine TransitionSystem.keep (P := fun s : State n => ((state t).central.robot i).stage.rank ≤
    (s.central.robot i).stage.rank) htu (fun v _ hv hle => ?_) (Nat.le_refl _)
  exact hle.trans (advance_run hitem hrun (Nat.lt_of_lt_of_le hv hu) i).rank_le

/-- **A robot that is done never changes again.** -/
theorem completed_run {i : Fin n} {t u : Nat} (htu : t ≤ u) (hu : u ≤ N)
    (hdone : ((state t).central.robot i).taskCompleted = true) :
    (state u).central.robot i = (state t).central.robot i := by
  refine TransitionSystem.keep
    (P := fun s : State n => s.central.robot i = (state t).central.robot i) htu
    (fun v _ hv heq => ?_) rfl
  have hstep := advance_run hitem hrun (Nat.lt_of_lt_of_le hv hu) i
  rw [hstep.eq_of_completed (by rw [heq]; exact hdone), heq]

end

theorem start_run (hrun : (system tasks).Run N state label) (i : Fin n) :
    ((state 0).central.robot i).stage = .empty := by
  have hstart : state 0 = ⟨Central.start tasks, .roundStart⟩ := hrun.init
  rw [hstart]
  show ((Central.start tasks).robot i).stage = .empty
  rw [show (Central.start tasks).robot i = startRobot (tasks i).1 (tasks i).2 from
    get_ofFn_fin _ i]
  rfl

section
variable {i : Fin n} (hitem : ∀ i, ProperItem (tasks i)) (hrun : (system tasks).Run N state label)
include hitem hrun

/-- **Loaded before delivered**: a robot that is done has loaded and, later,
delivered. -/
theorem history_run {t : Nat} (ht : t ≤ N)
    (hdone : ((state t).central.robot i).taskCompleted = true) :
    ∃ a b, a < b ∧ b < t ∧ LoadsAt state i a ∧ DeliversAt state i b := by
  have hstart := start_run hrun i
  obtain ⟨b, -, hbt, hb, hb'⟩ := TransitionSystem.exists_step
    (P := fun s : State n => (s.central.robot i).stage = .completed) (Nat.zero_le t)
    (fun h => absurd (hstart.symm.trans h) (by decide)) (stage_eq_completed.mpr hdone)
  have hloaded := ((advance_run hitem hrun (by omega) i).of_completed hb hb').1
  obtain ⟨a, -, hab, ha, ha'⟩ := TransitionSystem.exists_step
    (P := fun s : State n => (s.central.robot i).stage = .loaded) (Nat.zero_le b)
    (fun h => absurd (hstart.symm.trans h) (by decide)) hloaded
  have hempty := ((advance_run hitem hrun (by omega) i).of_loaded ha ha').1
  exact ⟨a, b, hab, hbt, ⟨hempty, ha'⟩, ⟨hloaded, hb'⟩⟩

/-- **A robot loads on the cell of its item**, empty and not done. -/
theorem loads_run {t : Nat} (ht : t < N) :
    let robot := (state t).central.robot i
    let robot' := (state (t + 1)).central.robot i
    robot.currentPayload ≠ robot.requiredPayload →
      robot'.currentPayload = robot'.requiredPayload →
      robot'.pos = getItemPosition ((tasks i).1 + chr '0') ∧ robot.currentPayload = 0 ∧
        robot.taskCompleted = false := by
  intro robot robot' hb ha
  have hc := carries_reachable hitem (hrun.reachable (by omega : t ≤ N)) i
  have hc' := carries_reachable hitem (hrun.reachable (show t + 1 ≤ N from ht)) i
  rw [hc.required] at hb
  rw [hc'.required] at ha
  have hempty : robot.currentPayload = 0 := hc.payload.resolve_right hb
  have hloaded : robot'.stage = .loaded := by
    refine stage_eq_loaded.mpr ⟨Bool.eq_false_iff.mpr fun hdone => ?_, by omega⟩
    have : robot'.currentPayload = 0 := hc'.completed hdone
    omega
  have hnot : robot.stage ≠ .loaded := fun h => (stage_eq_loaded.mp h).2 hempty
  obtain ⟨hstage, hpos⟩ := (advance_run hitem hrun ht i).of_loaded hnot hloaded
  exact ⟨hpos, hempty, (stage_eq_empty.mp hstage).1⟩

/-- **A robot completes its task on the cell of its destination**, loaded. -/
theorem delivers_run {t : Nat} (ht : t < N) :
    let robot := (state t).central.robot i
    let robot' := (state (t + 1)).central.robot i
    robot.taskCompleted = false → robot'.taskCompleted = true →
      robot'.pos = getDestinationPosition (tasks i).2 ∧
        robot.currentPayload = robot.requiredPayload ∧ robot.requiredPayload ≠ 0 := by
  intro robot robot' hb ha
  have hpositive := (hitem i).1
  have hc := carries_reachable hitem (hrun.reachable (by omega : t ≤ N)) i
  have hnot : robot.stage ≠ .completed :=
    fun h => absurd (hb.symm.trans (stage_eq_completed.mp h)) (by decide)
  obtain ⟨hstage, hpos⟩ :=
    (advance_run hitem hrun ht i).of_completed hnot (stage_eq_completed.mpr ha)
  rw [hc.required]
  exact ⟨hpos, hc.payload.resolve_left (stage_eq_loaded.mp hstage).2, by omega⟩

/-- **A robot delivers once.** -/
theorem delivers_once {t u : Nat} (ht : t < N) (hu : u < N) (hdt : DeliversAt state i t)
    (hdu : DeliversAt state i u) : t = u := by
  -- a delivery after another one would begin in the completed stage
  have hlt : ∀ {t u}, t < u → u < N → DeliversAt state i t → ¬DeliversAt state i u := by
    intro t u htu hu hdt hdu
    have := rank_run hitem hrun i (show t + 1 ≤ u from htu) (by omega)
    rw [hdt.2, hdu.1] at this
    exact absurd this (by decide)
  rcases Nat.lt_trichotomy t u with h | h | h
  · exact absurd hdu (hlt h hu hdt)
  · exact h
  · exact absurd hdt (hlt h ht hdu)

end

/-- **The life cycle of a delivery.**  In every run each robot `i`

* always holds nothing or its required payload, and its stage only goes up;
* comes to hold its payload only on the cell of its item, and only if it was empty
  and not done;
* completes its task only on the cell of its destination, while loaded, and once;
* from then on keeps its cell, its payload and its flag, and is sent only `WAIT`;

and the power goes off only after every robot has loaded and then delivered. -/
theorem delivery_life_cycle (hitem : ∀ i, ProperItem (tasks i))
    (hrun : (system tasks).Run N state label) (i : Fin n) :
    (∀ t, t ≤ N → ((state t).central.robot i).currentPayload = 0 ∨
      ((state t).central.robot i).currentPayload =
        ((state t).central.robot i).requiredPayload) ∧
    (∀ t u, t ≤ u → u ≤ N →
      ((state t).central.robot i).stage.rank ≤ ((state u).central.robot i).stage.rank) ∧
    (∀ t, t < N →
      ((state t).central.robot i).currentPayload ≠
        ((state t).central.robot i).requiredPayload →
      ((state (t + 1)).central.robot i).currentPayload =
        ((state (t + 1)).central.robot i).requiredPayload →
      ((state (t + 1)).central.robot i).pos = getItemPosition ((tasks i).1 + chr '0') ∧
      ((state t).central.robot i).currentPayload = 0 ∧
      ((state t).central.robot i).taskCompleted = false) ∧
    (∀ t, t < N → ((state t).central.robot i).taskCompleted = false →
      ((state (t + 1)).central.robot i).taskCompleted = true →
      ((state (t + 1)).central.robot i).pos = getDestinationPosition (tasks i).2 ∧
      ((state t).central.robot i).currentPayload =
        ((state t).central.robot i).requiredPayload ∧
      ((state t).central.robot i).requiredPayload ≠ 0) ∧
    (∀ t u, t < N → u < N → DeliversAt state i t → DeliversAt state i u → t = u) ∧
    (∀ t u, t ≤ u → u ≤ N → ((state t).central.robot i).taskCompleted = true →
      (state u).central.robot i = (state t).central.robot i) ∧
    (∀ t u, t ≤ u → u < N → ((state t).central.robot i).taskCompleted = true →
      label u = .command → ∀ start cmds pending,
      (state (u + 1)).phase = .executing start cmds pending → cmds.get i = .wait) ∧
    (∀ t, t < N → label t = .shutdown →
      ((state t).central.robot i).stage = .completed ∧
      ((state t).central.robot i).currentPayload = 0 ∧
      ∃ a b, a < b ∧ b < t ∧ LoadsAt state i a ∧ DeliversAt state i b) := by
  refine ⟨fun t ht => ?_, fun t u => rank_run hitem hrun i, fun t => loads_run hitem hrun,
    fun t => delivers_run hitem hrun, fun t u => delivers_once hitem hrun,
    fun t u => completed_run hitem hrun,
    fun t u htu hu hdone hlabel start cmds pending hphase => ?_, fun t ht hlabel => ?_⟩
  · have hc := carries_reachable hitem (hrun.reachable ht) i
    rw [hc.required]
    exact hc.payload
  · have hstep := hrun.step u hu
    rw [hlabel] at hstep
    refine command_step (inv_reachable (hrun.reachable (by omega))) hstep ?_ hphase
    rw [completed_run hitem hrun htu (by omega) hdone]
    exact hdone
  · have hstep := hrun.step t ht
    rw [hlabel] at hstep
    obtain ⟨hdone, hempty⟩ := shutdown_step (inv_reachable (hrun.reachable (by omega))) hstep i
    exact ⟨stage_eq_completed.mpr hdone, hempty, history_run hitem hrun (by omega) hdone⟩

end Run

/-- The first two steps of a run with one robot: it is told to move, and moves. -/
theorem delivery_life_cycle_first_move :
    let tasks : Fin 1 → Int × Int := fun _ => (1, chr 'A')
    let c := (Central.start tasks).readStatuses
    let state : Nat → State 1
      | 0 => ⟨Central.start tasks, .roundStart⟩
      | 1 => ⟨c.afterCommands, .executing c.robots c.command (List.finRange 1)⟩
      | _ => ⟨c.afterCommands.executeRobot c.command 0,
          .executing c.robots c.command ((List.finRange 1).erase 0)⟩
    let label : Nat → Event 1
      | 0 => .command
      | _ => .execute 0
    (system tasks).Run 2 state label ∧
      (((state 2).central.robot 0).currentPayload = 0 ∨
        ((state 2).central.robot 0).currentPayload =
          ((state 2).central.robot 0).requiredPayload) := by
  intro tasks c state label
  have hrun : (system tasks).Run 2 state label := by
    refine ⟨rfl, fun t ht => ?_⟩
    match t, ht with
    | 0, _ => exact .command _ (by decide +kernel)
    | 1, _ => exact .execute _ _ _ _ 0 (List.mem_finRange 0)
  have hitem : ∀ i, ProperItem (tasks i) := fun _ => ⟨by decide, by decide⟩
  exact ⟨hrun, (delivery_life_cycle hitem hrun 0).1 2 (Nat.le_refl 2)⟩

end Pintos.Warehouse
