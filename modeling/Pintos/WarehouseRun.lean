import Pintos.TransitionSystem
import Pintos.WarehouseDecision

/-!
# Runs of the warehouse: no collisions, and a round is a simultaneous move

A run alternates the controller's turn, in which it reads the statuses and sends
the commands, with the robots' turn, in which they carry out their commands one
at a time in any order.  The states between two robots' executions are states of
the run like any other.

Within a round every robot is where it stood at the start of the round or where
its command leads (`Midround`): the check each robot makes before it enters a
cell never turns it back.  So a round moves all robots at once, whatever the order
(`Central.Safe.round`), and all safety properties of the intermediate states follow from
the three facts about the commands.
-/

namespace Pintos.Warehouse

variable {n : Nat}

/-! ## The system -/

/-- Whose turn it is. -/
inductive Phase (n : Nat) where
  /-- Every robot has written its status; the controller is to read. -/
  | roundStart
  /-- The robots carry out `cmds`; those in `pending` have not done so yet.
  `start` is the array the round began with. -/
  | executing (start : Vector Robot n) (cmds : Vector Command n) (pending : List (Fin n))
  /-- `shutdown_power_off` has been called. -/
  | poweredOff

/-- A state of a run. -/
structure State (n : Nat) where
  central : Central n
  phase : Phase n

/-- The kinds of step. -/
inductive Event (n : Nat) where
  | shutdown
  | command
  | execute (i : Fin n)
  | finish

/-- The steps of a run. -/
inductive Step : State n → Event n → State n → Prop
  | shutdown (c : Central n) (hall : c.readStatuses.allCompleted = true) :
      Step ⟨c, .roundStart⟩ .shutdown ⟨c.readStatuses, .poweredOff⟩
  | command (c : Central n) (hall : c.readStatuses.allCompleted = false) :
      Step ⟨c, .roundStart⟩ .command
        ⟨c.readStatuses.afterCommands,
          .executing c.readStatuses.robots c.readStatuses.command (List.finRange n)⟩
  | execute (c : Central n) (start : Vector Robot n) (cmds : Vector Command n)
      (pending : List (Fin n)) (i : Fin n) (hi : i ∈ pending) :
      Step ⟨c, .executing start cmds pending⟩ (.execute i)
        ⟨c.executeRobot cmds i, .executing start cmds (pending.erase i)⟩
  | finish (c : Central n) (start : Vector Robot n) (cmds : Vector Command n) :
      Step ⟨c, .executing start cmds []⟩ .finish ⟨c, .roundStart⟩

/-- The warehouse with the given tasks. -/
def system (tasks : Fin n → Int × Int) : TransitionSystem (State n) (Event n) where
  init s := s = ⟨Central.start tasks, .roundStart⟩
  step := Step

/-! ## Carrying out a command -/

namespace Central

/-- Robot `i` once its command is carried out, if nothing stops it. -/
def executed (c : Central n) (i : Fin n) : Robot :=
  if (c.robot i).taskCompleted then c.robot i
  else loadOrUnload { c.robot i with row := (c.commandPos i).1, col := (c.commandPos i).2 }

end Central

theorem loadOrUnload_pos (r : Robot) : (loadOrUnload r).pos = r.pos := by
  unfold loadOrUnload
  split
  · rfl
  · split <;> rfl

theorem loadOrUnload_requiredItem (r : Robot) : (loadOrUnload r).requiredItem = r.requiredItem := by
  unfold loadOrUnload
  split
  · rfl
  · split <;> rfl

/-- A task is completed on the destination's cell. -/
theorem loadOrUnload_completed {r : Robot} (h : (loadOrUnload r).taskCompleted = true) :
    r.taskCompleted = true ∨ r.pos = r.destinationPosition := by
  unfold loadOrUnload at h
  split at h
  · exact Or.inl h
  · split at h
    · rename_i hd
      exact Or.inr hd.2
    · exact Or.inl h

/-- Every unloading place is shared, the default `W` included. -/
theorem isShared_destination (d : Int) : IsShared (getDestinationPosition d) := by
  unfold getDestinationPosition
  split
  · decide
  · split
    · decide
    · split <;> decide

/-! ## Safe states -/

/-- **The safety invariant**: robots stand on the map, on no wall, on an item's
cell only if it is their own item's, together only on shared places; a robot whose
task is completed stands on a shared place; the last status each robot has written
is its present one; and nobody has waited a negative time. -/
structure Central.Safe (c : Central n) : Prop where
  inMap : ∀ i, InMap (c.robot i).pos
  notWall : ∀ i, ¬IsWall (c.robot i).pos
  item : ∀ i, IsItemCell (c.robot i).pos →
    mapDrawDefault (c.robot i).row (c.robot i).col = (c.robot i).requiredItem + chr '0'
  shared : ∀ i j, i ≠ j → (c.robot i).pos = (c.robot j).pos → IsShared (c.robot i).pos
  completed : ∀ i, (c.robot i).taskCompleted = true → IsShared (c.robot i).pos
  sent : ∀ i : Fin n, c.fromRobots.get i = (c.robot i).status
  waits : ∀ i : Fin n, 0 ≤ c.waitSteps.get i

theorem safe_start (tasks : Fin n → Int × Int) : (Central.start tasks).Safe := by
  have hrobot : ∀ i, (Central.start tasks).robot i = startRobot (tasks i).1 (tasks i).2 :=
    fun i => get_ofFn_fin _ i
  have hW : IsShared (rowW, colW) := by decide
  refine ⟨fun i => ?_, fun i => ?_, fun i hi => ?_, fun i j _ _ => ?_, fun i hi => ?_,
    fun i => ?_, fun i => ?_⟩
  · rw [hrobot]
    show InMap (rowW, colW)
    decide
  · rw [hrobot]
    show ¬IsWall (rowW, colW)
    decide
  · rw [hrobot] at hi
    exact absurd hi (not_isItemCell_of_isShared hW)
  · rw [hrobot]
    exact hW
  · rw [hrobot] at hi
    cases hi
  · rw [hrobot, Central.start, get_ofFn_fin]
  · rw [Central.start, get_replicate_fin]

namespace Central

variable {c : Central n}

/-- **The copy-back changes nothing**: every status was written by its robot after
its last step. -/
theorem Safe.readStatuses_eq (h : c.Safe) : c.readStatuses = c := by
  have hrobots : copyBack c.robots c.fromRobots = c.robots := by
    refine vector_ext_fin fun i => ?_
    rw [copyBack, get_ofFn_fin, h.sent i]
    rfl
  unfold readStatuses
  rw [hrobots]

theorem commandPos_wait {i : Fin n} (h : c.command.get i = .wait) :
    c.commandPos i = (c.robot i).pos := by
  rw [commandPos, h]
  rfl

/-- **Robot `i` is sent to `p`**: an uncompleted robot, and a cell on the map that is
no wall, and is shared or free of robots and of other robots' items. -/
structure SentTo (c : Central n) (i : Fin n) (p : Int × Int) : Prop where
  told : c.command.get i ≠ .wait
  commandPos : p = c.commandPos i
  inMap : InMap p
  notWall : ¬IsWall p
  cell : IsShared p ∨
    ((∀ j, (c.robot j).pos ≠ p) ∧ (IsItemCell p → (c.robot i).MayFetch p))

theorem Safe.sentTo (h : c.Safe) {i : Fin n} (hw : c.command.get i ≠ .wait) :
    c.SentTo i (c.commandPos i) := by
  obtain ⟨-, hopen⟩ := command_open h.inMap hw
  obtain ⟨hin, hwall, hcell⟩ := isBlockedCell_eq_false_iff.mp hopen
  exact ⟨hw, rfl, hin, hwall, hcell⟩

/-- Nobody is sent to a cell where a robot stands, unless it is shared. -/
theorem SentTo.isShared {i j : Fin n} {p : Int × Int} (h : c.SentTo i p) (hj : (c.robot j).pos = p) :
    IsShared p :=
  h.cell.resolve_right fun hfree => hfree.1 j hj

/-- No two robots are sent to one cell. -/
theorem SentTo.ne {i j : Fin n} {p q : Int × Int} (h : c.SentTo i p) (h' : c.SentTo j q)
    (hs : c.Safe) (hij : i ≠ j) : p ≠ q ∧ p ≠ (c.robot j).pos := by
  obtain ⟨-, -, hexchange, hsame⟩ := command_apart hs.inMap hij h.told h'.told
  rw [h.commandPos, h'.commandPos]
  exact ⟨hsame, hexchange⟩

/-- A robot that is done is told to wait. -/
theorem Safe.command_completed (h : c.Safe) {i : Fin n} (hi : (c.robot i).taskCompleted = true) :
    c.command.get i = .wait := by
  refine Classical.byContradiction fun hw => ?_
  have := (command_open h.inMap hw).1
  rw [hi] at this
  cases this

theorem Safe.executed_pos (h : c.Safe) (i : Fin n) :
    (c.executed i).pos = c.commandPos i := by
  unfold executed
  split
  · rename_i hi
    exact (commandPos_wait (h.command_completed hi)).symm
  · rw [loadOrUnload_pos]
    rfl

end Central

/-! ## In the middle of a round -/

/-- **In the middle of a round** that began in `c₀`: robots in `pending` are as
they were, the others have carried out their commands. -/
structure Midround (c₀ : Central n) (pending : List (Fin n)) (c : Central n) : Prop where
  waitSteps : c.waitSteps = c₀.afterCommands.waitSteps
  sacrifice : c.sacrificeRobotIdx = c₀.afterCommands.sacrificeRobotIdx
  sent : ∀ i : Fin n, c.fromRobots.get i = (c.robot i).status
  robot : ∀ i, c.robot i = if i ∈ pending then c₀.robot i else c₀.executed i

theorem Central.Safe.midround {c : Central n} (h : c.Safe) :
    Midround c (List.finRange n) c.afterCommands where
  waitSteps := rfl
  sacrifice := rfl
  sent := h.sent
  robot i := by
    rw [if_pos (List.mem_finRange i)]
    rfl

theorem robot_executeRobot (c : Central n) (cmds : Vector Command n) (i j : Fin n) :
    (c.executeRobot cmds i).robot j =
      if i = j then executeCommand c.robot (c.robot i) (cmds.get i) else c.robot j :=
  get_set_fin _ i j _

namespace Midround
variable {c₀ c : Central n} {pending : List (Fin n)}

section
variable (hm : Midround c₀ pending c)
include hm

theorem pos (hs : c₀.Safe) (i : Fin n) :
    (c.robot i).pos = if i ∈ pending then (c₀.robot i).pos else c₀.commandPos i := by
  rw [hm.robot i]
  split
  · rfl
  · exact hs.executed_pos i

variable {i : Fin n}

/-- **The robot's own check never turns it back**: the cell its command leads to
is still open when its turn comes. -/
theorem still_open (hs : c₀.Safe) (hi : i ∈ pending) (hw : c₀.command.get i ≠ .wait) :
    isBlockedCell c.robot (c₀.robot i) (c₀.commandPos i).1 (c₀.commandPos i).2 = false := by
  obtain ⟨-, hopen⟩ := Central.command_open hs.inMap hw
  obtain ⟨h1, h2, h3⟩ := isBlockedCell_eq_false_iff.mp hopen
  refine isBlockedCell_eq_false_iff.mpr ⟨h1, h2, h3.imp_right fun ⟨hfree, hitem⟩ => ⟨?_, hitem⟩⟩
  intro j hj
  rw [hm.pos hs j] at hj
  split at hj
  · exact hfree j hj
  · rename_i hjp
    by_cases hwj : c₀.command.get j = .wait
    · rw [Central.commandPos_wait hwj] at hj
      exact hfree j hj
    · have hij : i ≠ j := fun he => hjp (he ▸ hi)
      exact (Central.command_apart hs.inMap hij hw hwj).2.2.2 hj.symm

/-- Carrying out a command has its full effect. -/
theorem executeCommand_eq (hs : c₀.Safe) (hi : i ∈ pending) :
    executeCommand c.robot (c.robot i) (c₀.command.get i) = c₀.executed i := by
  have hri : c.robot i = c₀.robot i := by
    have := hm.robot i
    rwa [if_pos hi] at this
  rw [hri]
  unfold executeCommand Central.executed
  split
  · rfl
  · by_cases hw : c₀.command.get i = .wait
    · rw [Central.commandPos_wait hw, hw]
      rfl
    · have hopen := hm.still_open hs hi hw
      rw [moveRobotOneStepByDirection, if_neg hw]
      exact congrArg loadOrUnload (if_neg (by rw [Bool.not_eq_true]; exact hopen))

/-- **One robot's step** leaves the run in the middle of the round. -/
theorem execute (hs : c₀.Safe) (hnd : pending.Nodup) (hi : i ∈ pending) :
    Midround c₀ (pending.erase i) (c.executeRobot c₀.command i) := by
  refine ⟨hm.waitSteps, hm.sacrifice, fun j => ?_, fun j => ?_⟩
  · rw [robot_executeRobot, Central.executeRobot, get_set_fin]
    split
    · rfl
    · exact hm.sent j
  rw [robot_executeRobot, hm.executeCommand_eq hs hi]
  by_cases hij : i = j
  · subst hij
    rw [if_pos rfl, if_neg (fun h => (hnd.mem_erase_iff.mp h).1 rfl)]
  · rw [if_neg hij, hm.robot j]
    by_cases hj : j ∈ pending
    · rw [if_pos hj, if_pos (hnd.mem_erase_iff.mpr ⟨Ne.symm hij, hj⟩)]
    · rw [if_neg hj, if_neg (fun h => hj (List.mem_of_mem_erase h))]

/-- Every robot is where it stood at the start of the round or where it was sent. -/
theorem pos_cases (hs : c₀.Safe) (i : Fin n) :
    (c.robot i).pos = (c₀.robot i).pos ∨ c₀.SentTo i (c.robot i).pos := by
  rw [hm.pos hs i]
  split
  · exact Or.inl rfl
  · by_cases hw : c₀.command.get i = .wait
    · exact Or.inl (Central.commandPos_wait hw)
    · exact Or.inr (hs.sentTo hw)

theorem requiredItem (i : Fin n) :
    (c.robot i).requiredItem = (c₀.robot i).requiredItem := by
  rw [hm.robot i]
  split
  · rfl
  · unfold Central.executed
    split
    · rfl
    · rw [loadOrUnload_requiredItem]

section
variable (hs : c₀.Safe)
include hs

theorem item (hi : IsItemCell (c.robot i).pos) :
    mapDrawDefault (c.robot i).pos.1 (c.robot i).pos.2 = (c.robot i).requiredItem + chr '0' := by
  rw [hm.requiredItem i]
  rcases hm.pos_cases hs i with hstay | hsent
  · rw [hstay] at hi ⊢
    exact hs.item i hi
  · rcases hsent.cell with hshared | ⟨-, hfetch⟩
    · exact absurd hi (not_isItemCell_of_isShared hshared)
    · exact (hfetch hi).2

theorem shared {i j : Fin n} (hij : i ≠ j) (he : (c.robot i).pos = (c.robot j).pos) :
    IsShared (c.robot i).pos := by
  rcases hm.pos_cases hs i with hi | hi
  · rcases hm.pos_cases hs j with hj | hj
    · rw [hi]
      exact hs.shared i j hij (hi.symm.trans (he.trans hj))
    · rw [he]
      exact hj.isShared (hi.symm.trans he)
  · rcases hm.pos_cases hs j with hj | hj
    · exact hi.isShared (hj.symm.trans he.symm)
    · exact absurd he (hi.ne hj hs hij).1

theorem completed (hi : (c.robot i).taskCompleted = true) :
    IsShared (c.robot i).pos := by
  rw [hm.robot i] at hi ⊢
  split at hi
  · rename_i hp
    rw [if_pos hp]
    exact hs.completed i hi
  · rename_i hp
    rw [if_neg hp, hs.executed_pos i]
    unfold Central.executed at hi
    split at hi
    · rename_i hdone
      rw [Central.commandPos_wait (hs.command_completed hdone)]
      exact hs.completed i hdone
    · rename_i hdone
      rcases loadOrUnload_completed hi with h | h
      · exact absurd h hdone
      · rw [show c₀.commandPos i = _ from h]
        exact isShared_destination _

/-- **Every state in the middle of a round is safe.** -/
theorem safe : c.Safe where
  inMap i := by
    rcases hm.pos_cases hs i with hstay | hsent
    · exact hstay ▸ hs.inMap i
    · exact hsent.inMap
  notWall i := by
    rcases hm.pos_cases hs i with hstay | hsent
    · exact hstay ▸ hs.notWall i
    · exact hsent.notWall
  item i hi := hm.item hs hi
  shared i j hij he := hm.shared hs hij he
  completed i hi := hm.completed hs hi
  sent := hm.sent
  waits i := by
    rw [hm.waitSteps, Central.afterCommands, get_ofFn_fin]
    have := hs.waits i
    split <;> omega

/-- **No two robots exchange cells.** -/
theorem no_exchange {i j : Fin n} (hij : i ≠ j) (hne : (c₀.robot i).pos ≠ (c₀.robot j).pos) :
    ¬((c.robot i).pos = (c₀.robot j).pos ∧ (c.robot j).pos = (c₀.robot i).pos) := by
  rintro ⟨hi, hj⟩
  rcases hm.pos_cases hs i with hstay | hsent
  · exact hne (hstay.symm.trans hi)
  · rcases hm.pos_cases hs j with hstay' | hsent'
    · exact hne (hj.symm.trans hstay')
    · exact (hsent.ne hsent' hs hij).2 hi

end

end

end Midround

/-! ## Reachable states -/

/-- The invariant of a run: the controller's state is safe between rounds, and
within a round it is in the middle of a round that began safely. -/
def Inv (s : State n) : Prop :=
  match s.phase with
  | .executing start cmds pending =>
    ∃ c₀ : Central n, c₀.Safe ∧ c₀.robots = start ∧ c₀.command = cmds ∧ pending.Nodup ∧
      Midround c₀ pending s.central
  | _ => s.central.Safe

theorem inv_step {s s' : State n} {e : Event n} (h : Inv s) (hs : Step s e s') : Inv s' := by
  cases hs with
  | shutdown c hall =>
    have hsafe : c.Safe := h
    rw [hsafe.readStatuses_eq]
    exact h
  | command c hall =>
    have hsafe : c.Safe := h
    rw [hsafe.readStatuses_eq]
    exact ⟨c, h, rfl, rfl, List.nodup_finRange n, hsafe.midround⟩
  | execute c start cmds pending i hi =>
    obtain ⟨c₀, hsafe, rfl, rfl, hnd, hm⟩ := h
    exact ⟨c₀, hsafe, rfl, rfl, hnd.erase i, hm.execute hsafe hnd hi⟩
  | finish c start cmds =>
    obtain ⟨c₀, hsafe, -, -, -, hm⟩ := h
    exact hm.safe hsafe

variable {tasks : Fin n → Int × Int}

theorem inv_reachable {s : State n} (h : (system tasks).Reachable s) : Inv s := by
  refine h.invariant ?_ fun _ _ _ => inv_step
  rintro _ rfl
  exact safe_start tasks

theorem Inv.safe {s : State n} (h : Inv s) : s.central.Safe := by
  obtain ⟨c, phase⟩ := s
  cases phase with
  | roundStart => exact h
  | poweredOff => exact h
  | executing start cmds pending =>
    obtain ⟨c₀, hsafe, -, -, -, hm⟩ := h
    exact hm.safe hsafe

/-- **Collision freedom.**  In every state of every run, between two robots'
executions included, all robots stand on the map and on no wall, a robot on an
item's cell wants this item, two robots share a cell only if it is `A`, `B`, `C` or
`W`, and no two robots have exchanged their cells since the round began. -/
theorem collision_free (tasks : Fin n → Int × Int) {s : State n}
    (h : (system tasks).Reachable s) :
    (∀ i, InMap (s.central.robot i).pos ∧ ¬IsWall (s.central.robot i).pos) ∧
    (∀ i, IsItemCell (s.central.robot i).pos →
      mapDrawDefault (s.central.robot i).row (s.central.robot i).col =
        (s.central.robot i).requiredItem + chr '0') ∧
    (∀ i j, i ≠ j → (s.central.robot i).pos = (s.central.robot j).pos →
      IsShared (s.central.robot i).pos) ∧
    ∀ start cmds pending, s.phase = .executing start cmds pending → ∀ i j : Fin n, i ≠ j →
      (start.get i).pos ≠ (start.get j).pos →
      ¬((s.central.robot i).pos = (start.get j).pos ∧ (s.central.robot j).pos = (start.get i).pos) := by
  have hinv := inv_reachable h
  have hsafe := hinv.safe
  refine ⟨fun i => ⟨hsafe.inMap i, hsafe.notWall i⟩, hsafe.item, hsafe.shared, ?_⟩
  intro start cmds pending hphase i j hij hne
  unfold Inv at hinv
  rw [hphase] at hinv
  obtain ⟨c₀, hs₀, rfl, -, -, hm⟩ := hinv
  exact hm.no_exchange hs₀ hij hne

/-- Two robots, of which the first has just made its first move. -/
theorem collision_free_first_move :
    let tasks : Fin 2 → Int × Int := [(1, chr 'A'), (4, chr 'B')].get
    let c := (Central.start tasks).readStatuses
    let s : State 2 := ⟨c.afterCommands.executeRobot c.command 0,
      .executing c.robots c.command ((List.finRange 2).erase 0)⟩
    (system tasks).Reachable s ∧ (∀ i, ¬IsWall (s.central.robot i).pos) ∧
      ((s.central.robot 0).pos = (s.central.robot 1).pos → IsShared (s.central.robot 0).pos) := by
  intro tasks c s
  have hcommand : (system tasks).Reachable
      ⟨c.afterCommands, .executing c.robots c.command (List.finRange 2)⟩ :=
    .step (.init rfl) (.command _ (by decide +kernel))
  have h : (system tasks).Reachable s :=
    .step hcommand (.execute _ _ _ _ 0 (List.mem_finRange 0))
  obtain ⟨hcell, -, hshared, -⟩ := collision_free tasks h
  exact ⟨h, fun i => (hcell i).2, hshared 0 1 (by decide)⟩

/-! ## A round is a simultaneous move -/

/-- A loop that takes the pending robots one by one, in any order. -/
theorem foldl_perm {σ : Type} {f : σ → Fin n → σ} {P : List (Fin n) → σ → Prop}
    (hstep : ∀ {pending c i}, i ∈ pending → P pending c → P (pending.erase i) (f c i))
    {order pending : List (Fin n)} {c : σ} (hperm : order.Perm pending) (h : P pending c) :
    P [] (order.foldl f c) := by
  induction order generalizing pending c with
  | nil =>
    obtain rfl := hperm.nil_eq
    exact h
  | cons i order ih =>
    have hi : i ∈ pending := hperm.subset List.mem_cons_self
    exact ih (List.cons_perm_iff_perm_erase.mp hperm).2 (hstep hi h)

/-- A whole round, in any order, executes every command. -/
theorem Central.Safe.round {c : Central n} (h : c.Safe) {order : List (Fin n)}
    (hperm : order.Perm (List.finRange n)) : Midround c [] (c.round order) := by
  unfold Central.round
  rw [h.readStatuses_eq]
  exact (foldl_perm (P := fun pending c' => pending.Nodup ∧ Midround c pending c')
    (fun hi hm => ⟨hm.1.erase _, hm.2.execute h hm.1 hi⟩) hperm
    ⟨List.nodup_finRange n, h.midround⟩).2

theorem Midround.ext {c₀ c c' : Central n} (h : Midround c₀ [] c) (h' : Midround c₀ [] c') :
    c = c' := by
  have hrobot : ∀ i, c.robot i = c'.robot i := fun i => (h.robot i).trans (h'.robot i).symm
  have hsent : c.fromRobots = c'.fromRobots := by
    refine vector_ext_fin fun i => ?_
    rw [h.sent i, h'.sent i, hrobot i]
  obtain ⟨robots, fromRobots, waitSteps, sacrifice⟩ := c
  obtain ⟨robots', fromRobots', waitSteps', sacrifice'⟩ := c'
  have hrobots : robots = robots' := vector_ext_fin hrobot
  rw [hrobots, show fromRobots = fromRobots' from hsent,
    show waitSteps = waitSteps' from h.waitSteps.trans h'.waitSteps.symm,
    show sacrifice = sacrifice' from h.sacrifice.trans h'.sacrifice.symm]

/-- **A round is a simultaneous move.**  From every reachable state at the start of
a round, whatever the order in which the robots carry out their commands: a robot
told to move ends on the cell the controller computed for it, every other robot
stays; what the robots load, unload and complete, and the whole state, do not
depend on the order; and the copy-back of the next round changes nothing. -/
theorem round_simultaneous (tasks : Fin n → Int × Int) {c : Central n}
    (h : (system tasks).Reachable ⟨c, .roundStart⟩) {order : List (Fin n)}
    (hperm : order.Perm (List.finRange n)) :
    (∀ i, c.command.get i ≠ .wait →
      ((c.round order).robot i).pos =
        getNextPosition (c.robot i).row (c.robot i).col (c.command.get i)) ∧
    (∀ i, c.command.get i = .wait → ((c.round order).robot i).pos = (c.robot i).pos) ∧
    (∀ i, (c.round order).robot i = c.executed i) ∧
    (∀ order', order'.Perm (List.finRange n) → c.round order' = c.round order) ∧
    (c.round order).readStatuses = c.round order := by
  have hsafe : c.Safe := inv_reachable h
  have hround := hsafe.round hperm
  have hpos : ∀ i, ((c.round order).robot i).pos = c.commandPos i := hround.pos hsafe
  refine ⟨fun i _ => hpos i, fun i hw => ?_, hround.robot, fun order' hperm' => ?_, ?_⟩
  · rw [hpos i, Central.commandPos_wait hw]
  · exact (hsafe.round hperm').ext hround
  · exact (hround.safe hsafe).readStatuses_eq

theorem round_simultaneous_start :
    let tasks : Fin 2 → Int × Int := [(1, chr 'A'), (4, chr 'B')].get
    let c := Central.start tasks
    (system tasks).Reachable ⟨c, .roundStart⟩ ∧ c.round [0, 1] = c.round [1, 0] := by
  intro tasks c
  have h : (system tasks).Reachable ⟨c, .roundStart⟩ := .init rfl
  exact ⟨h, (round_simultaneous tasks h (by decide : List.Perm [1, 0] (List.finRange 2))).2.2.2.1
    [0, 1] (by decide)⟩

/-! ## Rounds are runs -/

/-- **A round is a run**: while a task is open, the state a round leads to is
reachable. -/
theorem reachable_round {c : Central n} (h : (system tasks).Reachable ⟨c, .roundStart⟩)
    (hopen : c.allCompleted = false) {order : List (Fin n)} (hperm : order.Perm (List.finRange n)) :
    (system tasks).Reachable ⟨c.round order, .roundStart⟩ := by
  have hsafe : c.Safe := inv_reachable h
  have hcommand := Step.command c (by rw [hsafe.readStatuses_eq]; exact hopen)
  have hexecuted := foldl_perm (P := fun pending c' => (system tasks).Reachable
      ⟨c', .executing c.readStatuses.robots c.readStatuses.command pending⟩)
    (fun hi hr => .step hr (.execute _ _ _ _ _ hi)) hperm (.step h hcommand)
  exact .step hexecuted (.finish _ _ _)

end Pintos.Warehouse
