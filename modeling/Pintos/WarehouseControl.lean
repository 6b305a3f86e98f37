import Pintos.WarehousePath

/-!
# The controller's round and the robots' steps

`central_control_thread` repeats a round: it copies the robots' status messages
into `robots`, powers off if every task is done, computes a command for each
robot and wakes the robots; each then carries out its command (`robot_thread`).

`Central` holds what survives from one round to the next: the robots, the last
status message of each, how long each has been waiting, and the deadlock's victim.
The arrays a round fills (`target_row`, `desired_cmd`, `next_row`, ...) are functions
of it, one per stage of the source.
-/

namespace Pintos.Warehouse

variable {n : Nat}

/-- The part of `struct message` that goes to the controller. -/
structure Status where
  row : Int
  col : Int
  currentPayload : Int
  requiredPayload : Int
  completed : Bool
  deriving DecidableEq, Repr

/-- The status message a robot writes. -/
def Robot.status (r : Robot) : Status where
  row := r.row
  col := r.col
  currentPayload := r.currentPayload
  requiredPayload := r.requiredPayload
  completed := r.taskCompleted

/-- What lasts from one round to the next.  `fromRobots` are the messages in
`boxes_from_robots`; `sacrificeRobotIdx` is `none` where the source has `-1`. -/
structure Central (n : Nat) where
  robots : Vector Robot n
  fromRobots : Vector Status n
  waitSteps : Vector Int n
  sacrificeRobotIdx : Option (Fin n)
  deriving DecidableEq

/-- `robots[i]`. -/
def Central.robot (c : Central n) (i : Fin n) : Robot := c.robots.get i

/-! ## Stage 1: targets and desired moves -/

/-- The arrays stage 1 fills: `target_row` and `target_col`, `desired_cmd`,
`next_row` and `next_col`. -/
structure Stage1 (n : Nat) where
  target : Vector (Int × Int) n
  desiredCmd : Vector Command n
  nextPos : Vector (Int × Int) n

namespace Central

def target (c : Central n) (i : Fin n) : Int × Int :=
  if (c.robot i).taskCompleted then (-1, -1) else getRobotTarget (c.robot i)

/-- The first step towards the target; the victim of a deadlock keeps still. -/
def desiredCmd (c : Central n) (i : Fin n) : Command :=
  if (c.robot i).taskCompleted then .wait
  else if c.sacrificeRobotIdx = some i then .wait
  else getNextDirection c.robot (c.robot i) (c.target i).1 (c.target i).2

def stage1 (c : Central n) : Stage1 n :=
  let desiredCmd := Vector.ofFn c.desiredCmd
  { target := Vector.ofFn c.target
    desiredCmd := desiredCmd
    nextPos := Vector.ofFn fun i =>
      getNextPosition (c.robot i).row (c.robot i).col (desiredCmd.get i) }

/-! ## Stage 2: the batch of accepted moves -/

/-- Does robot `j` stand in the way of robot `i`'s desired move?  A robot whose
move is accepted must not share a current or next cell with `i`; any other must
not stand where `i` goes, shared places apart. -/
def inTheWay (c : Central n) (p : Stage1 n) (accepted : Vector Bool n) (i j : Fin n) : Bool :=
  if accepted.get j then
    (c.robot i).pos = (c.robot j).pos ∨ (c.robot i).pos = p.nextPos.get j ∨
      p.nextPos.get i = (c.robot j).pos ∨ p.nextPos.get i = p.nextPos.get j
  else !isSharedPlace (p.nextPos.get i).1 (p.nextPos.get i).2 ∧ p.nextPos.get i = (c.robot j).pos

/-- `can_accept_batch_move`. -/
def canAcceptBatchMove (c : Central n) (p : Stage1 n) (accepted : Vector Bool n) (i : Fin n) :
    Bool :=
  (List.finRange n).all fun j => j = i ∨ !c.inTheWay p accepted i j

end Central

/-- `accepted`, `considered` and `accepted_count`. -/
structure Batch (n : Nat) where
  accepted : Vector Bool n
  considered : Vector Bool n
  acceptedCount : Nat

namespace Central

/-- One turn of the scan for the next robot to consider. -/
def longerWaiting (c : Central n) (considered : Vector Bool n) (best : Option (Fin n))
    (i : Fin n) : Option (Fin n) :=
  if considered.get i || (c.robot i).taskCompleted then best
  else
    match best with
    | none => some i
    | some j => if c.waitSteps.get i > c.waitSteps.get j then some i else some j

/-- The next robot to consider: the first among those that have waited
longest. -/
def longestWaiting (c : Central n) (considered : Vector Bool n) : Option (Fin n) :=
  (List.finRange n).foldl (c.longerWaiting considered) none

/-- Consider robot `i`: accept its move if it wants one that conflicts with
nothing. -/
def consider (c : Central n) (p : Stage1 n) (b : Batch n) (i : Fin n) : Batch n :=
  let considered := b.considered.set i true i.isLt
  if p.desiredCmd.get i ≠ .wait ∧ c.canAcceptBatchMove p b.accepted i then
    { accepted := b.accepted.set i true i.isLt
      considered := considered
      acceptedCount := b.acceptedCount + 1 }
  else { b with considered := considered }

/-- The loop over `checked`, which stops when nobody is left to consider. -/
def acceptLoop (c : Central n) (p : Stage1 n) : Nat → Batch n → Batch n
  | 0, b => b
  | k + 1, b =>
    match c.longestWaiting b.considered with
    | none => b
    | some i => acceptLoop c p k (c.consider p b i)

/-- The batch of moves stage 2 accepts. -/
def batch (c : Central n) (p : Stage1 n) : Batch n :=
  c.acceptLoop p n ⟨.replicate n false, .replicate n false, 0⟩

/-! ## Stage 3: the deadlock's victim -/

/-- The direction in which robot `i` can make room. -/
def escape (c : Central n) (i : Fin n) : Command :=
  getEscapeDirection c.robot (c.robot i) (c.target i).1 (c.target i).2

/-- One turn of the scan for a victim, which keeps the best so far and how long
it has waited. -/
def betterVictim (c : Central n) (best : Option (Fin n) × Int) (i : Fin n) :
    Option (Fin n) × Int :=
  if (c.robot i).taskCompleted then best
  else if c.escape i ≠ .wait ∧ c.waitSteps.get i > best.2 then (some i, c.waitSteps.get i)
  else best

/-- The longest-waiting robot that can make room. -/
def longestWaitingEscape (c : Central n) : Option (Fin n) :=
  ((List.finRange n).foldl c.betterVictim (none, -1)).1

/-- `choose_deadlock_victim`: the current victim as long as it can make room,
else a new one.  The result is also the new `sacrifice_robot_idx`. -/
def chooseDeadlockVictim (c : Central n) : Option (Fin n) :=
  match c.sacrificeRobotIdx with
  | none => c.longestWaitingEscape
  | some i =>
    if ¬(c.robot i).taskCompleted ∧ c.escape i ≠ .wait then some i
    else c.longestWaitingEscape

/-! ## Stage 4: the commands -/

end Central

/-- What a round decides: `accepted` and `desired_cmd` as stage 3 leaves them,
and the new `sacrifice_robot_idx`. -/
structure Decision (n : Nat) where
  accepted : Vector Bool n
  desiredCmd : Vector Command n
  sacrificeRobotIdx : Option (Fin n)

namespace Central

/-- Stages 1 to 3. -/
def decision (c : Central n) : Decision n :=
  let p := c.stage1
  let b := c.batch p
  if b.acceptedCount = 0 then
    match c.chooseDeadlockVictim with
    | none => ⟨b.accepted, p.desiredCmd, none⟩
    | some v =>
      ⟨b.accepted.set v true v.isLt, p.desiredCmd.set v (c.escape v) v.isLt, some v⟩
  else ⟨b.accepted, p.desiredCmd, none⟩

end Central

/-- The command finally sent to robot `i`: the default `WAIT`, overwritten if its
move is accepted. -/
def Decision.command (d : Decision n) (i : Fin n) : Command :=
  if d.accepted.get i then d.desiredCmd.get i else .wait

namespace Central

/-- The commands of the round. -/
def command (c : Central n) : Vector Command n := Vector.ofFn c.decision.command

/-- The controller's state once the commands are sent. -/
def afterCommands (c : Central n) : Central n :=
  let d := c.decision
  { c with
    waitSteps := Vector.ofFn fun i =>
      if (c.robot i).taskCompleted || d.accepted.get i then 0 else c.waitSteps.get i + 1
    sacrificeRobotIdx := d.sacrificeRobotIdx }

/-- Every robot has completed its task and carries nothing. -/
def allCompleted (c : Central n) : Bool :=
  (List.finRange n).all fun i => (c.robot i).taskCompleted ∧ (c.robot i).currentPayload = 0

end Central

/-! ## The robots' side -/

/-- `move_robot_one_step_by_direction`, on robot `i`: the robot checks the cell
again before it enters. -/
def moveRobotOneStepByDirection (robots : Fin n → Robot) (robot : Robot) (d : Command) : Robot :=
  if d = .wait then robot
  else
    let next := getNextPosition robot.row robot.col d
    if isBlockedCell robots robot next.1 next.2 then robot
    else { robot with row := next.1, col := next.2 }

/-- Load on the item's cell, unload on the destination's. -/
def loadOrUnload (robot : Robot) : Robot :=
  if robot.currentPayload = 0 ∧ robot.pos = robot.itemPosition then
    { robot with currentPayload := robot.requiredPayload }
  else if robot.currentPayload > 0 ∧ robot.pos = robot.destinationPosition then
    { robot with currentPayload := 0, taskCompleted := true }
  else robot

/-- What `robot_thread` does with the command it has received. -/
def executeCommand (robots : Fin n → Robot) (robot : Robot) (cmd : Command) : Robot :=
  if robot.taskCompleted then robot
  else loadOrUnload (moveRobotOneStepByDirection robots robot cmd)

/-- Robot `i` wakes, carries out its command and, back at the head of its loop,
writes its status. -/
def Central.executeRobot (c : Central n) (cmds : Vector Command n) (i : Fin n) : Central n :=
  let robot := executeCommand c.robot (c.robot i) (cmds.get i)
  { c with
    robots := c.robots.set i robot i.isLt
    fromRobots := c.fromRobots.set i robot.status i.isLt }

/-! ## Rounds -/

/-- The controller copies a status message into `robots[i]`. -/
def Robot.copyStatus (r : Robot) (msg : Status) : Robot :=
  { r with
    row := msg.row
    col := msg.col
    currentPayload := msg.currentPayload
    requiredPayload := msg.requiredPayload
    taskCompleted := msg.completed }

/-- The controller's copy-back of all status messages. -/
def copyBack (robots : Vector Robot n) (msgs : Vector Status n) : Vector Robot n :=
  Vector.ofFn fun i => (robots.get i).copyStatus (msgs.get i)

/-- The statuses the robots have written are read. -/
def Central.readStatuses (c : Central n) : Central n :=
  { c with robots := copyBack c.robots c.fromRobots }

/-- One synchronous round: statuses read, commands computed, and the robots carry
them out in the given order. -/
def Central.round (c : Central n) (order : List (Fin n)) : Central n :=
  let read := c.readStatuses
  let cmds := read.command
  order.foldl (fun c i => c.executeRobot cmds i) read.afterCommands

/-- The start: every robot on `W`, with its first status written; nobody has waited,
there is no victim. -/
def Central.start (tasks : Fin n → Int × Int) : Central n where
  robots := Vector.ofFn fun i => startRobot (tasks i).1 (tasks i).2
  fromRobots := Vector.ofFn fun i => (startRobot (tasks i).1 (tasks i).2).status
  waitSteps := .replicate n 0
  sacrificeRobotIdx := none

end Pintos.Warehouse
