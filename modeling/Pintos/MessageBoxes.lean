import Pintos.WarehouseRun

/-!
# The message boxes

Here the controller and the robots are threads that are interleaved call by call.
A robot writes its status and sets its dirty bit, blocks, and once it is woken
receives its command, carries it out and clears its dirty bit.  The controller polls
the dirty bits, reads the statuses, writes the commands and wakes whoever is
blocked.

Nothing keeps the two in step but the dirty bits, and these fail in two ways.  A
robot that is preempted between `send_message_to_central` and `block_thread` is not
on `blocked_threads` when the controller wakes the others, so that it misses the
round (`missed_round`).  And the dirty bit is cleared by the robot, after it has
moved, not by the controller when it reads; so a bit the controller finds set can
be the one of the round before.  As long as neither happens, every command is
executed once, before the next status is read (`commands_executed_once`).
-/

namespace Pintos.Warehouse

variable {n : Nat}

/-! ## The threads -/

/-- The call a robot thread makes next. -/
inductive RobotPc where
  | sendMessage
  | blockThread
  /-- On `blocked_threads`: it makes no call until it is woken. -/
  | blocked
  | receiveCommand
  | clearCommand (cmd : Command)
  | execute (cmd : Command)
  | clearMessage
  deriving DecidableEq

/-- Where the controller is in its round: in which loop, and at which robot. -/
inductive CentralPc (n : Nat) where
  | polling (i timeout : Nat)
  | reading (i : Nat)
  | sendingWait (i : Nat)
  | sendingCommand (i : Nat) (d : Decision n)
  | poweredOff

/-- The state of all threads.  `issued` are the commands each robot's box held when
the controller woke the robots, `executed` those it has carried out, and `written`
says how many it had carried out when it wrote its last status; the code has no
counterpart of these three. -/
structure Threads (n : Nat) where
  central : Central n
  dirtyBit : Vector Bool n
  cmd : Vector Command n
  cmdDirtyBit : Vector Bool n
  blockedThreads : List (Fin n)
  robotPc : Vector RobotPc n
  centralPc : CentralPc n
  issued : Vector (List Command) n
  executed : Vector (List Command) n
  written : Vector Nat n

/-- The calls. -/
inductive Call (n : Nat) where
  | sendMessageToCentral (i : Fin n)
  | blockThread (i : Fin n)
  | receiveCommandFromCentral (i : Fin n)
  | clearCommandBox (i : Fin n)
  | executeCommand (i : Fin n)
  | clearMessageBox (i : Fin n)
  | isMessageFromRobotReady (i : Fin n)
  /-- The controller gives up waiting for robot `i`. -/
  | timeout (i : Fin n)
  | allReady
  | receiveMessageFromRobot (i : Fin n)
  | checkCompleted
  | sendWait (i : Fin n)
  | plan
  | sendCommand (i : Fin n)
  | unblockThreads
  deriving DecidableEq

namespace Threads

/-! ### The robots' calls -/

def setRobotPc (s : Threads n) (i : Fin n) (pc : RobotPc) : Threads n :=
  { s with robotPc := s.robotPc.set i pc i.isLt }

def sendMessageToCentral (s : Threads n) (i : Fin n) : Threads n :=
  { s.setRobotPc i .blockThread with
    central := { s.central with
      fromRobots := s.central.fromRobots.set i (s.central.robot i).status i.isLt }
    dirtyBit := s.dirtyBit.set i true i.isLt
    written := s.written.set i (s.executed.get i).length i.isLt }

def blockThread (s : Threads n) (i : Fin n) : Threads n :=
  { s.setRobotPc i .blocked with blockedThreads := s.blockedThreads ++ [i] }

def receiveCommandFromCentral (s : Threads n) (i : Fin n) : Threads n :=
  s.setRobotPc i (.clearCommand (s.cmd.get i))

/-- `clear_message_box (idx, 1)`. -/
def clearCommandBox (s : Threads n) (i : Fin n) (cmd : Command) : Threads n :=
  { s.setRobotPc i (.execute cmd) with cmdDirtyBit := s.cmdDirtyBit.set i false i.isLt }

def executeCommand (s : Threads n) (i : Fin n) (cmd : Command) : Threads n :=
  { s.setRobotPc i .clearMessage with
    central := { s.central with
      robots := s.central.robots.set i
        (Warehouse.executeCommand s.central.robot (s.central.robot i) cmd) i.isLt }
    executed := s.executed.set i (s.executed.get i ++ [cmd]) i.isLt }

/-- `clear_message_box (idx, 0)`. -/
def clearMessageBox (s : Threads n) (i : Fin n) : Threads n :=
  { s.setRobotPc i .sendMessage with dirtyBit := s.dirtyBit.set i false i.isLt }

/-! ### The controller's calls -/

/-- A bit that is not set sends the controller to sleep and back to the first
robot. -/
def isMessageFromRobotReady (s : Threads n) (i : Fin n) (timeout : Nat) : Threads n :=
  if s.dirtyBit.get i then { s with centralPc := .polling (i + 1) timeout }
  else { s with centralPc := .polling 0 (timeout + 1) }

/-- A status is read and copied into `robots[i]`. -/
def receiveMessageFromRobot (s : Threads n) (i : Fin n) : Threads n :=
  { s with
    central := { s.central with
      robots := s.central.robots.set i
        ((s.central.robot i).copyStatus (s.central.fromRobots.get i)) i.isLt }
    centralPc := .reading (i + 1) }

def sendCommandToRobot (s : Threads n) (i : Fin n) (cmd : Command) : Threads n :=
  { s with
    cmd := s.cmd.set i cmd i.isLt
    cmdDirtyBit := s.cmdDirtyBit.set i true i.isLt }

/-- Everybody on `blocked_threads` is woken; the round's commands are issued. -/
def unblockThreads (s : Threads n) : Threads n :=
  { s with
    robotPc := Vector.ofFn fun i =>
      if i ∈ s.blockedThreads then .receiveCommand else s.robotPc.get i
    blockedThreads := []
    issued := Vector.ofFn fun i => s.issued.get i ++ [s.cmd.get i]
    centralPc := .polling 0 0 }

/-! ### Runs -/

/-- May the call be made now? -/
def enabled (s : Threads n) : Call n → Bool
  | .sendMessageToCentral i => s.robotPc.get i = .sendMessage
  | .blockThread i => s.robotPc.get i = .blockThread
  | .receiveCommandFromCentral i => s.robotPc.get i = .receiveCommand
  | .clearCommandBox i => match s.robotPc.get i with | .clearCommand _ => true | _ => false
  | .executeCommand i => match s.robotPc.get i with | .execute _ => true | _ => false
  | .clearMessageBox i => s.robotPc.get i = .clearMessage
  | .isMessageFromRobotReady i => match s.centralPc with
    | .polling j timeout => j = i ∧ (s.dirtyBit.get i = true ∨ timeout + 1 < 100)
    | _ => false
  | .timeout i => match s.centralPc with
    | .polling j timeout => j = i ∧ s.dirtyBit.get i = false ∧ timeout + 1 = 100
    | _ => false
  | .allReady => match s.centralPc with | .polling j _ => j = n | _ => false
  | .receiveMessageFromRobot i => match s.centralPc with | .reading j => j = i | _ => false
  | .checkCompleted => match s.centralPc with | .reading j => j = n | _ => false
  | .sendWait i => match s.centralPc with | .sendingWait j => j = i | _ => false
  | .plan => match s.centralPc with | .sendingWait j => j = n | _ => false
  | .sendCommand i => match s.centralPc with | .sendingCommand j _ => j = i | _ => false
  | .unblockThreads => match s.centralPc with | .sendingCommand j _ => j = n | _ => false

/-- The state after a call. -/
def call (s : Threads n) : Call n → Threads n
  | .sendMessageToCentral i => s.sendMessageToCentral i
  | .blockThread i => s.blockThread i
  | .receiveCommandFromCentral i => s.receiveCommandFromCentral i
  | .clearCommandBox i => match s.robotPc.get i with
    | .clearCommand cmd => s.clearCommandBox i cmd
    | _ => s
  | .executeCommand i => match s.robotPc.get i with
    | .execute cmd => s.executeCommand i cmd
    | _ => s
  | .clearMessageBox i => s.clearMessageBox i
  | .isMessageFromRobotReady i => match s.centralPc with
    | .polling _ timeout => s.isMessageFromRobotReady i timeout
    | _ => s
  | .timeout _ => { s with centralPc := .reading 0 }
  | .allReady => { s with centralPc := .reading 0 }
  | .receiveMessageFromRobot i => s.receiveMessageFromRobot i
  | .checkCompleted =>
    if s.central.allCompleted then { s with centralPc := .poweredOff }
    else { s with centralPc := .sendingWait 0 }
  | .sendWait i => { s.sendCommandToRobot i .wait with centralPc := .sendingWait (i + 1) }
  | .plan =>
    { s with
      central := s.central.afterCommands
      centralPc := .sendingCommand 0 s.central.decision }
  | .sendCommand i => match s.centralPc with
    | .sendingCommand _ d =>
      if d.accepted.get i then
        { s.sendCommandToRobot i (d.desiredCmd.get i) with centralPc := .sendingCommand (i + 1) d }
      else { s with centralPc := .sendingCommand (i + 1) d }
    | _ => s
  | .unblockThreads => s.unblockThreads

/-- The boxes are cleared, and no thread has made a call yet. -/
def start (tasks : Fin n → Int × Int) : Threads n where
  central := { Central.start tasks with fromRobots := .replicate n ⟨0, 0, 0, 0, false⟩ }
  dirtyBit := .replicate n false
  cmd := .replicate n .wait
  cmdDirtyBit := .replicate n false
  blockedThreads := []
  robotPc := .replicate n .sendMessage
  centralPc := .polling 0 0
  issued := .replicate n []
  executed := .replicate n []
  written := .replicate n 0

end Threads

/-- The threads, interleaved in any order. -/
def threads (tasks : Fin n → Int × Int) : TransitionSystem (Threads n) (Call n) :=
  .guarded (Threads.start tasks) (fun s e => s.enabled e = true) Threads.call

/-! ## One robot's share of the state -/

/-- What concerns one robot. -/
structure View where
  robot : Robot
  msg : Status
  dirtyBit : Bool
  cmd : Command
  pc : RobotPc
  issued : List Command
  executed : List Command
  written : Nat

namespace View

/-- The robot has written its status and has not been woken since. -/
def Settled (v : View) : Prop := v.pc = .blockThread ∨ v.pc = .blocked

instance (v : View) : Decidable v.Settled := inferInstanceAs (Decidable (_ ∨ _))

/-- The robot has been woken and has not cleared its dirty bit yet. -/
def Awake (v : View) : Prop := ¬v.Settled ∧ v.pc ≠ .sendMessage

instance (v : View) : Decidable v.Awake := inferInstanceAs (Decidable (_ ∧ _))

/-- **The robot is in step**: its dirty bit says that it has written a status; it has
executed all commands but the one it may be about to execute; and once it has
written its status, this is its present one. -/
structure InStep (v : View) : Prop where
  dirty : v.dirtyBit = true ↔ v.pc ≠ .sendMessage
  commands : v.issued = match v.pc with
    | .receiveCommand => v.executed ++ [v.cmd]
    | .clearCommand cmd => v.executed ++ [cmd]
    | .execute cmd => v.executed ++ [cmd]
    | _ => v.executed
  fresh : v.Settled → v.msg = v.robot.status ∧ v.written = v.executed.length

/-- A robot that has written its status has executed all its commands. -/
theorem InStep.executed_eq {v : View} (h : v.InStep) (hs : v.Settled) : v.executed = v.issued := by
  rw [h.commands]
  rcases hs with hpc | hpc <;> rw [hpc]

/-- A robot executes its commands in order, each at most once. -/
theorem InStep.executed_isPrefix {v : View} (h : v.InStep) : v.executed <+: v.issued := by
  rw [h.commands]
  cases v.pc with
  | receiveCommand | clearCommand cmd | execute cmd => exact List.prefix_append _ _
  | _ => exact List.prefix_refl _

/-- The copy-back of a status that is in step changes nothing. -/
theorem InStep.copyStatus {v : View} (h : v.InStep) (hs : v.Settled) :
    v.robot.copyStatus v.msg = v.robot := by
  rw [(h.fresh hs).1]
  rfl

end View

namespace Threads

/-- Robot `i`'s share. -/
def view (s : Threads n) (i : Fin n) : View where
  robot := s.central.robot i
  msg := s.central.fromRobots.get i
  dirtyBit := s.dirtyBit.get i
  cmd := s.cmd.get i
  pc := s.robotPc.get i
  issued := s.issued.get i
  executed := s.executed.get i
  written := s.written.get i

variable {s : Threads n} {i : Fin n}

section
variable (s : Threads n) (i j : Fin n)

theorem view_sendMessageToCentral :
    (s.sendMessageToCentral i).view j = if i = j then
      { s.view i with
        msg := (s.view i).robot.status, dirtyBit := true, pc := .blockThread,
        written := (s.view i).executed.length }
      else s.view j := by
  by_cases h : i = j <;> simp [h, view, sendMessageToCentral, setRobotPc, Central.robot]

theorem view_setRobotPc (pc : RobotPc) :
    (s.setRobotPc i pc).view j = if i = j then { s.view i with pc := pc } else s.view j := by
  by_cases h : i = j <;> simp [h, view, setRobotPc]

theorem view_executeCommand (cmd : Command) :
    (s.executeCommand i cmd).view j = if i = j then
      { s.view i with
        robot := Warehouse.executeCommand s.central.robot (s.view i).robot cmd, pc := .clearMessage,
        executed := (s.view i).executed ++ [cmd] }
      else s.view j := by
  by_cases h : i = j <;> simp [h, view, executeCommand, setRobotPc, Central.robot]

theorem view_clearMessageBox :
    (s.clearMessageBox i).view j = if i = j then
      { s.view i with dirtyBit := false, pc := .sendMessage } else s.view j := by
  by_cases h : i = j <;> simp [h, view, clearMessageBox, setRobotPc]

theorem view_sendCommandToRobot (cmd : Command) :
    (s.sendCommandToRobot i cmd).view j =
      if i = j then { s.view i with cmd := cmd } else s.view j := by
  by_cases h : i = j <;> simp [h, view, sendCommandToRobot]

theorem view_receiveMessageFromRobot :
    (s.receiveMessageFromRobot i).view j = if i = j then
      { s.view i with robot := (s.view i).robot.copyStatus (s.view i).msg } else s.view j := by
  by_cases h : i = j <;> simp [h, view, receiveMessageFromRobot, Central.robot]

theorem view_unblockThreads :
    s.unblockThreads.view j = { s.view j with
      pc := if j ∈ s.blockedThreads then .receiveCommand else (s.view j).pc
      issued := (s.view j).issued ++ [(s.view j).cmd] } := by
  simp [view, unblockThreads]

end

end Threads

/-! ## Keeping in step -/

/-- The controller has found robot `i`'s dirty bit set in this round. -/
def CentralPc.Passed (pc : CentralPc n) (i : Fin n) : Prop :=
  match pc with
  | .polling j _ => i < j
  | _ => True

/-- **The threads are in step**: every robot is, `blocked_threads` lists the blocked
ones, and whoever the controller has found ready has written its status. -/
structure Synced (s : Threads n) : Prop where
  inStep : ∀ i, (s.view i).InStep
  blocked : ∀ i, i ∈ s.blockedThreads ↔ (s.view i).pc = .blocked
  passed : ∀ i, s.centralPc.Passed i → (s.view i).Settled

/-- **The call comes on time**: a dirty bit is not polled while it is the one of the
round before, and the robots are woken when all of them are blocked. -/
def OnTime (s : Threads n) : Call n → Prop
  | .isMessageFromRobotReady i => s.dirtyBit.get i = true → ¬(s.view i).Awake
  | .unblockThreads => ∀ i, i ∈ s.blockedThreads
  | _ => True

instance (s : Threads n) : ∀ e, Decidable (OnTime s e)
  | .isMessageFromRobotReady _ => inferInstanceAs (Decidable (_ → _))
  | .unblockThreads => inferInstanceAs (Decidable (∀ _, _))
  | .sendMessageToCentral _ | .blockThread _ | .receiveCommandFromCentral _ | .clearCommandBox _
  | .executeCommand _ | .clearMessageBox _ | .timeout _ | .allReady | .receiveMessageFromRobot _
  | .checkCompleted | .sendWait _ | .plan | .sendCommand _ => inferInstanceAs (Decidable True)

theorem synced_start (tasks : Fin n → Int × Int) : Synced (Threads.start tasks) where
  inStep i := by
    refine ⟨?_, ?_, fun h => ?_⟩
    · simp [Threads.view, Threads.start]
    · simp [Threads.view, Threads.start]
    · simp [Threads.view, Threads.start, View.Settled] at h
  blocked i := by simp [Threads.view, Threads.start]
  passed i h := by simp [Threads.start, CentralPc.Passed] at h

namespace Synced
variable {s s' : Threads n} {i : Fin n}

section
variable (h : Synced s)
include h

/-- One robot makes a call. -/
theorem robot_call {v : View} (hview : ∀ j, s'.view j = if i = j then v else s.view j)
    (hpc : s'.centralPc = s.centralPc) (hin : v.InStep) (hsettled : (s.view i).Settled → v.Settled)
    (hblocked : ∀ j, j ∈ s'.blockedThreads ↔ j ∈ s.blockedThreads ∨ i = j ∧ v.pc = .blocked)
    (hwas : (s.view i).pc ≠ .blocked) : Synced s' where
  inStep j := by
    rw [hview j]
    split
    · exact hin
    · exact h.inStep j
  blocked j := by
    rw [hview j, hblocked j, h.blocked j]
    by_cases hij : i = j
    · subst hij
      rw [if_pos rfl]
      exact ⟨fun hor => hor.elim (fun hb => absurd hb hwas) And.right, fun hb => Or.inr ⟨rfl, hb⟩⟩
    · rw [if_neg hij]
      exact ⟨fun hor => hor.resolve_right fun hand => hij hand.1, Or.inl⟩
  passed j hj := by
    rw [hpc] at hj
    rw [hview j]
    split
    · rename_i hij
      exact hsettled (hij ▸ h.passed j hj)
    · exact h.passed j hj

/-- The controller makes a call that does not concern the robots. -/
theorem central_call (hview : ∀ j, s'.view j = s.view j)
    (hblocked : s'.blockedThreads = s.blockedThreads)
    (hpassed : ∀ j, s'.centralPc.Passed j → (s.view j).Settled) : Synced s' where
  inStep j := by
    rw [hview j]
    exact h.inStep j
  blocked j := by
    rw [hview j, hblocked]
    exact h.blocked j
  passed j hj := by
    rw [hview j]
    exact hpassed j hj

/-- One robot makes a call between its wake-up and its next status. -/
theorem awake_call {v : View} (hview : ∀ j, s'.view j = if i = j then v else s.view j)
    (hpc : s'.centralPc = s.centralPc) (hblocked : s'.blockedThreads = s.blockedThreads)
    (hwas : ¬(s.view i).Settled) (hnow : ¬v.Settled) (hin : ¬v.Settled → v.InStep) :
    Synced s' := by
  refine h.robot_call hview hpc (hin hnow) (fun hs => absurd hs hwas) (fun j => ?_)
    (fun hb => hwas (Or.inr hb))
  rw [hblocked]
  exact ⟨Or.inl, fun hor => hor.resolve_right fun hand => hnow (Or.inr hand.2)⟩

theorem sendMessageToCentral (hpc : (s.view i).pc = .sendMessage) :
    Synced (s.sendMessageToCentral i) := by
  have hcommands := (h.inStep i).commands
  rw [hpc] at hcommands
  refine h.robot_call (s.view_sendMessageToCentral i) rfl
    ⟨by simp, hcommands, fun _ => ⟨rfl, rfl⟩⟩ (fun _ => Or.inl rfl) (fun j => ?_)
    (by rw [hpc]; decide)
  simp [Threads.sendMessageToCentral, Threads.setRobotPc]

theorem blockThread (hpc : (s.view i).pc = .blockThread) :
    Synced (s.blockThread i) := by
  have hcommands := (h.inStep i).commands
  have hdirty := (h.inStep i).dirty
  rw [hpc] at hcommands hdirty
  have hfresh := (h.inStep i).fresh (Or.inl hpc)
  refine h.robot_call (s.view_setRobotPc i · .blocked) rfl
    ⟨?_, hcommands, fun _ => hfresh⟩ (fun _ => Or.inr rfl) (fun j => ?_) (by rw [hpc]; decide)
  · rw [hdirty]
    simp
  · simp [Threads.blockThread, Threads.setRobotPc, eq_comm]

theorem receiveCommandFromCentral (hpc : (s.view i).pc = .receiveCommand) :
    Synced (s.receiveCommandFromCentral i) := by
  have hdirty := (h.inStep i).dirty
  have hcommands := (h.inStep i).commands
  rw [hpc] at hdirty hcommands
  exact h.awake_call (s.view_setRobotPc i · _) rfl rfl (by simp [View.Settled, hpc])
    (by simp [View.Settled]) fun hnow => ⟨by simpa using hdirty, hcommands, (absurd · hnow)⟩

theorem clearCommandBox {cmd : Command} (hpc : (s.view i).pc = .clearCommand cmd) :
    Synced (s.clearCommandBox i cmd) := by
  have hdirty := (h.inStep i).dirty
  have hcommands := (h.inStep i).commands
  rw [hpc] at hdirty hcommands
  exact h.awake_call (s.view_setRobotPc i · _) rfl rfl (by simp [View.Settled, hpc])
    (by simp [View.Settled]) fun hnow => ⟨by simpa using hdirty, hcommands, (absurd · hnow)⟩

theorem executeCommand {cmd : Command} (hpc : (s.view i).pc = .execute cmd) :
    Synced (s.executeCommand i cmd) := by
  have hdirty := (h.inStep i).dirty
  have hcommands := (h.inStep i).commands
  rw [hpc] at hdirty hcommands
  exact h.awake_call (s.view_executeCommand i · cmd) rfl rfl (by simp [View.Settled, hpc])
    (by simp [View.Settled]) fun hnow => ⟨by simpa using hdirty, hcommands, (absurd · hnow)⟩

theorem clearMessageBox (hpc : (s.view i).pc = .clearMessage) :
    Synced (s.clearMessageBox i) := by
  have hcommands := (h.inStep i).commands
  rw [hpc] at hcommands
  exact h.awake_call (s.view_clearMessageBox i) rfl rfl (by simp [View.Settled, hpc])
    (by simp [View.Settled]) fun hnow => ⟨by simp, hcommands, (absurd · hnow)⟩

/-- A dirty bit that is found set on time is that of a status just written. -/
theorem isMessageFromRobotReady {timeout : Nat} (hpc : s.centralPc = .polling i timeout)
    (htime : s.dirtyBit.get i = true → ¬(s.view i).Awake) :
    Synced (s.isMessageFromRobotReady i timeout) := by
  unfold Threads.isMessageFromRobotReady
  split
  · rename_i hdirty
    have hsettled : (s.view i).Settled :=
      Classical.byContradiction fun hs => htime hdirty ⟨hs, (h.inStep i).dirty.mp hdirty⟩
    refine h.central_call (fun _ => rfl) rfl fun j hj => ?_
    have hle : j.val < i.val + 1 := hj
    rcases Nat.lt_succ_iff_lt_or_eq.mp hle with hlt | heq
    · exact h.passed j (by rw [hpc]; exact hlt)
    · rw [Fin.ext heq]
      exact hsettled
  · exact h.central_call (fun _ => rfl) rfl fun j hj => absurd hj (Nat.not_lt_zero _)

section
variable (hall : ∀ j, (s.view j).Settled)
include hall

/-- Once everybody is settled, the controller may go on. -/
theorem go_on (pc : CentralPc n) :
    Synced { s with centralPc := pc } :=
  h.central_call (fun _ => rfl) rfl fun j _ => hall j

theorem receiveMessageFromRobot :
    Synced (s.receiveMessageFromRobot i) := by
  refine h.central_call (fun j => ?_) rfl fun j _ => hall j
  rw [Threads.view_receiveMessageFromRobot]
  split
  · rename_i hij
    subst hij
    rw [(h.inStep i).copyStatus (hall i)]
  · rfl

/-- A command is written while nobody is about to receive one. -/
theorem sendCommandToRobot (cmd : Command) :
    Synced (s.sendCommandToRobot i cmd) where
  inStep j := by
    rw [Threads.view_sendCommandToRobot]
    split
    · rename_i hij
      subst hij
      refine ⟨(h.inStep i).dirty, ?_, (h.inStep i).fresh⟩
      rw [← (h.inStep i).executed_eq (hall i)]
      rcases hall i with hpc | hpc <;> simp only [hpc]
    · exact h.inStep j
  blocked j := by
    rw [Threads.view_sendCommandToRobot]
    split
    · rename_i hij
      subst hij
      exact h.blocked i
    · exact h.blocked j
  passed j _ := by
    rw [Threads.view_sendCommandToRobot]
    split
    · rename_i hij
      subst hij
      exact hall i
    · exact hall j

end

/-- **A wake-up that finds everybody blocked** starts a round for everybody. -/
theorem unblockThreads (hall : ∀ j, j ∈ s.blockedThreads) :
    Synced s.unblockThreads where
  inStep j := by
    have hpc := (h.blocked j).mp (hall j)
    have hsettled : (s.view j).Settled := Or.inr hpc
    have hdirty := (h.inStep j).dirty
    rw [hpc] at hdirty
    rw [Threads.view_unblockThreads, if_pos (hall j)]
    refine ⟨by simpa using hdirty, ?_, fun hs => ?_⟩
    · show (s.view j).issued ++ [(s.view j).cmd] = (s.view j).executed ++ [(s.view j).cmd]
      rw [(h.inStep j).executed_eq hsettled]
    · simp [View.Settled] at hs
  blocked j := by
    rw [Threads.view_unblockThreads, if_pos (hall j)]
    simp [Threads.unblockThreads]
  passed j hj := absurd hj (Nat.not_lt_zero _)

/-- In the rest of its round the controller has everybody's status. -/
theorem settled (hpc : ∀ j timeout, s.centralPc ≠ .polling j timeout) (j : Fin n) :
    (s.view j).Settled := by
  refine h.passed j ?_
  unfold CentralPc.Passed
  split
  · rename_i hpolling
    exact absurd hpolling (hpc _ _)
  · trivial

omit h in
theorem not_polling {e : Call n} (henabled : s.enabled e = true)
    (he : match e with
      | .receiveMessageFromRobot _ | .checkCompleted | .sendWait _ | .plan | .sendCommand _ => True
      | _ => False) (j timeout : Nat) : s.centralPc ≠ .polling j timeout := by
  intro hpc
  cases e <;> simp [Threads.enabled, hpc] at henabled he

/-- **Every call that comes on time keeps the threads in step.** -/
theorem call {e : Call n} (henabled : s.enabled e = true) (htimeout : ∀ i, e ≠ .timeout i)
    (htime : OnTime s e) : Synced (s.call e) := by
  cases e with
  | sendMessageToCentral i => exact h.sendMessageToCentral (of_decide_eq_true henabled)
  | blockThread i => exact h.blockThread (of_decide_eq_true henabled)
  | receiveCommandFromCentral i => exact h.receiveCommandFromCentral (of_decide_eq_true henabled)
  | clearCommandBox i =>
    unfold Threads.call
    dsimp only
    split
    · rename_i cmd hpc
      exact h.clearCommandBox hpc
    · exact h
  | executeCommand i =>
    unfold Threads.call
    dsimp only
    split
    · rename_i cmd hpc
      exact h.executeCommand hpc
    · exact h
  | clearMessageBox i => exact h.clearMessageBox (of_decide_eq_true henabled)
  | isMessageFromRobotReady i =>
    simp only [Threads.enabled] at henabled
    split at henabled
    · rename_i j timeout hpc
      obtain ⟨rfl, -⟩ := of_decide_eq_true henabled
      rw [show s.call (.isMessageFromRobotReady i) = s.isMessageFromRobotReady i timeout by
        simp only [Threads.call, hpc]]
      exact h.isMessageFromRobotReady hpc htime
    · cases henabled
  | timeout i => exact absurd rfl (htimeout i)
  | allReady =>
    simp only [Threads.enabled] at henabled
    split at henabled
    · rename_i j timeout hpc
      obtain rfl : j = n := of_decide_eq_true henabled
      exact h.go_on (fun i => h.passed i (by rw [hpc]; exact i.isLt)) _
    · cases henabled
  | receiveMessageFromRobot i =>
    exact h.receiveMessageFromRobot (h.settled (not_polling henabled trivial))
  | checkCompleted =>
    have hall := h.settled (not_polling henabled trivial)
    unfold Threads.call
    dsimp only
    split
    · exact h.go_on hall _
    · exact h.go_on hall _
  | sendWait i =>
    have hpc := not_polling henabled trivial
    have hsent := h.sendCommandToRobot (i := i) (h.settled hpc) .wait
    exact hsent.go_on (hsent.settled hpc) _
  | plan =>
    exact h.central_call (fun _ => rfl) rfl fun j _ => h.settled (not_polling henabled trivial) j
  | sendCommand i =>
    have hpc := not_polling henabled trivial
    unfold Threads.call
    dsimp only
    split
    · rename_i d _
      split
      · have hsent := h.sendCommandToRobot (i := i) (h.settled hpc) (d.desiredCmd.get i)
        exact hsent.go_on (hsent.settled hpc) _
      · exact h.go_on (h.settled hpc) _
    · exact h
  | unblockThreads => exact h.unblockThreads htime

end

end Synced

/-- **Every command is executed once, before the next status is read.**  In every
run in which no wait times out, no dirty bit is polled while it is the one of the
round before, and the robots are woken only when all of them are blocked: at any
time each robot has executed a prefix of the commands issued to it; when the
controller reads a robot's status, the robot has executed all of them, has written
this status afterwards, and the copy-back changes nothing. -/
theorem commands_executed_once (tasks : Fin n → Int × Int) {N : Nat} {state : Nat → Threads n}
    {label : Nat → Call n} (hrun : (threads tasks).Run N state label)
    (htimeout : ∀ t, t < N → ∀ i, label t ≠ .timeout i)
    (htime : ∀ t, t < N → OnTime (state t) (label t)) :
    (∀ t, t ≤ N → ∀ i, (state t).executed.get i <+: (state t).issued.get i) ∧
    ∀ t, t < N → ∀ i, label t = .receiveMessageFromRobot i →
      (state t).executed.get i = (state t).issued.get i ∧
      (state t).written.get i = ((state t).issued.get i).length ∧
      ((state t).central.robot i).copyStatus ((state t).central.fromRobots.get i) =
        (state t).central.robot i := by
  have hsynced : ∀ t, t ≤ N → Synced (state t) := fun t ht =>
    hrun.invariant (synced_start tasks)
      (fun u hu hs henabled => hs.call henabled (htimeout u hu) (htime u hu)) ht
  refine ⟨fun t ht i => ((hsynced t ht).inStep i).executed_isPrefix, fun t ht i hlabel => ?_⟩
  have hs := hsynced t (by omega)
  obtain ⟨henabled, -⟩ := hrun.step t ht
  rw [hlabel] at henabled
  simp only [Threads.enabled] at henabled
  split at henabled
  · rename_i hpc
    have hsettled := hs.settled (by rw [hpc]; simp) i
    have hexecuted := (hs.inStep i).executed_eq hsettled
    refine ⟨hexecuted, ?_, (hs.inStep i).copyStatus hsettled⟩
    have hwritten := ((hs.inStep i).fresh hsettled).2
    rw [hexecuted] at hwritten
    exact hwritten
  · cases henabled

/-- A round of one robot, until its status is read again. -/
theorem commands_executed_once_round :
    let tasks : Fin 1 → Int × Int := fun _ => (1, chr 'A')
    let calls : List (Call 1) :=
      [.sendMessageToCentral 0, .blockThread 0, .isMessageFromRobotReady 0, .allReady,
       .receiveMessageFromRobot 0, .checkCompleted, .sendWait 0, .plan, .sendCommand 0,
       .unblockThreads, .receiveCommandFromCentral 0, .clearCommandBox 0, .executeCommand 0,
       .clearMessageBox 0, .sendMessageToCentral 0, .blockThread 0, .isMessageFromRobotReady 0,
       .allReady, .receiveMessageFromRobot 0]
    let state := TransitionSystem.after Threads.call (Threads.start tasks) calls
    (threads tasks).Run 19 state (fun t => calls.getD t .allReady) ∧
      (state 18).issued.get 0 = [.up] ∧ (state 18).executed.get 0 = [.up] := by
  intro tasks calls state
  have henabled : ∀ t, t < 19 → (state t).enabled (calls.getD t .allReady) = true := by
    decide +kernel
  have hrun : (threads tasks).Run 19 state (fun t => calls.getD t .allReady) :=
    TransitionSystem.Run.of_labels calls .allReady henabled
  have hissued : (state 18).issued.get 0 = [.up] := by decide +kernel
  refine ⟨hrun, hissued, ?_⟩
  have honce := (commands_executed_once tasks hrun (by decide +kernel) (by decide +kernel)).2 18
    (by decide) 0 rfl
  rw [honce.1, hissued]

/-- **A robot misses a round**: it is preempted between writing its status and
blocking, and the command of the first round is not executed when its status is
read in the second, although no wait has timed out. -/
theorem missed_round :
    let tasks : Fin 1 → Int × Int := fun _ => (1, chr 'A')
    ∃ (N : Nat) (state : Nat → Threads 1) (label : Nat → Call 1),
      (threads tasks).Run N state label ∧ (∀ t, t < N → ∀ i, label t ≠ .timeout i) ∧
      ∃ t, t < N ∧ label t = .receiveMessageFromRobot 0 ∧
        (state t).issued.get 0 = [.up] ∧ (state t).executed.get 0 = [] := by
  intro tasks
  let calls : List (Call 1) :=
    [.sendMessageToCentral 0, .isMessageFromRobotReady 0, .allReady, .receiveMessageFromRobot 0,
     .checkCompleted, .sendWait 0, .plan, .sendCommand 0, .unblockThreads, .blockThread 0,
     .isMessageFromRobotReady 0, .allReady, .receiveMessageFromRobot 0]
  let state := TransitionSystem.after Threads.call (Threads.start tasks) calls
  have henabled : ∀ t, t < 13 → (state t).enabled (calls.getD t .allReady) = true := by
    decide +kernel
  have hrun : (threads tasks).Run 13 state (fun t => calls.getD t .allReady) :=
    TransitionSystem.Run.of_labels calls .allReady henabled
  exact ⟨13, state, _, hrun, by decide +kernel, 12, by decide, rfl, by decide +kernel,
    by decide +kernel⟩

end Pintos.Warehouse
