import Mathlib.Algebra.BigOperators.Fin
import Mathlib.Algebra.Order.BigOperators.Group.Finset
import Pintos.WarehouseCorridor
import Pintos.WarehouseDelivery

/-!
# Which simulations end

A round in which a robot falls back to the nearest reachable cell, or in which
nobody moves and a victim has to make room, is a *detour*: it can undo progress.
There are task lists for which detours go on for ever (`livelock`).

In every other round each robot that moves makes a step of a shortest way to its
target, and a measure decreases: first the stages still to come, then the ways
still to go (`Plain.weight_lt`).  So a simulation ends if and only if it makes
finitely many detours (`ends_iff`).  The order in which the robots take their turns makes
no difference to this (`runs_are_rounds`).
-/

namespace Pintos.Warehouse
open List (finRange)

variable {n : Nat}

/-! ## Synchronous rounds -/

/-- The state after `k` synchronous rounds. -/
def rounds (tasks : Fin n → Int × Int) : Nat → Central n
  | 0 => Central.start tasks
  | k + 1 => (rounds tasks k).round (finRange n)

/-- The item is `1` to `7` and the destination `A`, `B` or `C`. -/
def ProperTask (task : Int × Int) : Prop :=
  (1 ≤ task.1 ∧ task.1 ≤ 7) ∧ (task.2 = chr 'A' ∨ task.2 = chr 'B' ∨ task.2 = chr 'C')

instance (task : Int × Int) : Decidable (ProperTask task) :=
  inferInstanceAs (Decidable ((_ ∧ _) ∧ (_ ∨ _ ∨ _)))

theorem ProperTask.properItem {task : Int × Int} (h : ProperTask task) : ProperItem task :=
  ⟨h.1.1, by have := h.1.2; omega⟩

namespace Central

/-- Robot `i`'s target is out of reach and it heads for the nearest cell that is
not: the second branch of `get_next_direction`. -/
def Fallback (c : Central n) (i : Fin n) : Prop :=
  (bfs c.robot (c.robot i)).parent (c.target i).1 (c.target i).2 = -1 ∧ c.desiredCmd i ≠ .wait

/-- A robot falls back, or nobody wants to move while a task is open, so that the
controller looks for a victim. -/
def Detour (c : Central n) : Prop :=
  (∃ i, c.Fallback i) ∨
    ((∃ i, (c.robot i).taskCompleted = false) ∧ ∀ i, c.desiredCmd i = .wait)

end Central

theorem safe_rounds (tasks : Fin n → Int × Int) : ∀ k, (rounds tasks k).Safe
  | 0 => safe_start tasks
  | k + 1 => ((safe_rounds tasks k).round (List.Perm.refl _)).safe (safe_rounds tasks k)

/-- What a round makes of each robot. -/
theorem robot_rounds (tasks : Fin n → Int × Int) (k : Nat) (i : Fin n) :
    (rounds tasks (k + 1)).robot i = (rounds tasks k).executed i :=
  ((safe_rounds tasks k).round (List.Perm.refl _)).robot i

variable {c : Central n}

theorem executed_advance {task : Int × Int} {i : Fin n} (h : Carries task (c.robot i))
    (hitem : ProperItem task) :
    Carries task (c.executed i) ∧ Advance task (c.robot i) (c.executed i) := by
  unfold Central.executed
  split
  · exact ⟨h, .refl _ _⟩
  · rename_i hopen
    have hopen : (c.robot i).taskCompleted = false := Bool.eq_false_iff.mpr hopen
    exact ⟨(h.moved _).loadOrUnload hopen, h.advance hitem hopen _⟩

variable {tasks : Fin n → Int × Int}

theorem carries_rounds (hitem : ∀ i, ProperItem (tasks i)) (i : Fin n) :
    ∀ k, Carries (tasks i) ((rounds tasks k).robot i)
  | 0 => by
    rw [show (rounds tasks 0).robot i = startRobot (tasks i).1 (tasks i).2 from
      get_ofFn_fin _ i]
    exact carries_startRobot (hitem i)
  | k + 1 => by
    rw [robot_rounds]
    exact (executed_advance (carries_rounds hitem i k) (hitem i)).1

/-! ## Targets -/

/-- Every digit stands on the map once. -/
theorem getItemPosition_mapDrawDefault {q : Int × Int} (hin : InMap q) (hq : IsItemCell q) :
    getItemPosition (mapDrawDefault q.1 q.2) = q := by
  rw [← mem_cells] at hin
  revert q
  decide +kernel

theorem getItemPosition_mem {item : Int} (h : 1 ≤ item ∧ item ≤ 7) :
    IsItemCell (getItemPosition (item + chr '0')) ∧
      (getItemPosition (item + chr '0') ∈ targets ∨ getItemPosition (item + chr '0') = cell7) := by
  have hcases : item = 1 ∨ item = 2 ∨ item = 3 ∨ item = 4 ∨ item = 5 ∨ item = 6 ∨ item = 7 := by
    omega
  rcases hcases with rfl | rfl | rfl | rfl | rfl | rfl | rfl <;> decide +kernel

theorem getDestinationPosition_mem {destination : Int}
    (h : destination = chr 'A' ∨ destination = chr 'B' ∨ destination = chr 'C') :
    getDestinationPosition destination ∈ targets := by
  rcases h with rfl | rfl | rfl <;> decide +kernel

theorem inMap_of_targets {t : Int × Int} (h : t ∈ targets ∨ t = cell7) : InMap t := by
  rcases h with h | rfl
  · revert t
    decide +kernel
  · decide

namespace Carries
variable {task : Int × Int} {c : Central n} {i : Fin n}

theorem target_empty (h : Carries task (c.robot i)) (htask : ProperItem task)
    (hstage : (c.robot i).stage = .empty) :
    c.target i = getItemPosition (task.1 + chr '0') := by
  obtain ⟨hopen, hempty⟩ := stage_eq_empty.mp hstage
  rw [Central.target, if_neg (by rw [hopen]; decide), getRobotTarget, if_pos hempty]
  exact h.itemPosition htask

theorem target_loaded (h : Carries task (c.robot i)) (hstage : (c.robot i).stage = .loaded) :
    c.target i = getDestinationPosition task.2 := by
  obtain ⟨hopen, hloaded⟩ := stage_eq_loaded.mp hstage
  rw [Central.target, if_neg (by rw [hopen]; decide), getRobotTarget, if_neg hloaded,
    Robot.destinationPosition, h.destination]

theorem stage_cases (hopen : (c.robot i).taskCompleted = false) :
    (c.robot i).stage = .empty ∨ (c.robot i).stage = .loaded := by
  by_cases h : (c.robot i).currentPayload = 0
  · exact Or.inl (stage_eq_empty.mpr ⟨hopen, h⟩)
  · exact Or.inr (stage_eq_loaded.mpr ⟨hopen, h⟩)

section
variable (h : Carries task (c.robot i)) (htask : ProperTask task)
  (hopen : (c.robot i).taskCompleted = false)
include h htask hopen

/-- What a robot heads for. -/
theorem target_mem : c.target i ∈ targets ∨ c.target i = cell7 := by
  rcases stage_cases hopen with hstage | hstage
  · rw [h.target_empty htask.properItem hstage]
    exact (getItemPosition_mem htask.1).2
  · rw [h.target_loaded hstage]
    exact Or.inl (getDestinationPosition_mem htask.2)

theorem isTarget :
    Target c.robot (c.robot i) (c.target i) := by
  refine ⟨inMap_of_targets (h.target_mem htask hopen), ?_, fun q hq hfree => ?_⟩
  · rcases stage_cases hopen with hstage | hstage
    · rw [h.target_empty htask.properItem hstage]
      exact Or.inl (getItemPosition_mem htask.1).1
    · rw [h.target_loaded hstage]
      exact Or.inr (isShared_destination _)
  · obtain ⟨hin, -, hcell⟩ := isBlockedCell_eq_false_iff.mp hfree
    rcases hcell with hshared | ⟨-, hfetch⟩
    · exact absurd hq (not_isItemCell_of_isShared hshared)
    · obtain ⟨hempty, hdigit⟩ := hfetch hq
      rw [h.target_empty htask.properItem (stage_eq_empty.mpr ⟨hopen, hempty⟩), ← h.item,
        ← hdigit]
      exact (getItemPosition_mapDrawDefault hin hq).symm

end

/-- **A robot that arrives at its target enters the next stage.** -/
theorem stage_of_arrival (h : Carries task (c.robot i)) (htask : ProperItem task)
    (hopen : (c.robot i).taskCompleted = false) (hpos : c.commandPos i = c.target i) :
    (c.executed i).stage ≠ (c.robot i).stage := by
  have hexec : c.executed i = Warehouse.loadOrUnload
      { c.robot i with row := (c.commandPos i).1, col := (c.commandPos i).2 } :=
    if_neg (by rw [hopen]; decide)
  rw [hexec, hpos]
  rcases stage_cases hopen with hstage | hstage
  · have hempty := (stage_eq_empty.mp hstage).2
    have hcell := h.target_empty htask hstage
    rw [← h.itemPosition htask] at hcell
    unfold Warehouse.loadOrUnload
    rw [if_pos ⟨hempty, hcell⟩, hstage]
    refine fun hbad => ?_
    have hzero := (stage_eq_empty.mp hbad).2
    have hpositive := htask.1
    have hrequired : (c.robot i).requiredPayload = 0 := hzero
    rw [h.required] at hrequired
    omega
  · have hloaded := (stage_eq_loaded.mp hstage).2
    have hpositive := htask.1
    have hpayload : (c.robot i).currentPayload > 0 := by
      rcases h.payload with h0 | h1
      · exact absurd h0 hloaded
      · omega
    have hcell : c.target i = (c.robot i).destinationPosition := by
      rw [h.target_loaded hstage, Robot.destinationPosition, h.destination]
    unfold Warehouse.loadOrUnload
    rw [if_neg fun hbad => hloaded hbad.1, if_pos ⟨hpayload, hcell⟩, hstage]
    intro hbad
    cases (stage_eq_loaded.mp hbad).1

end Carries

/-! ## The measure -/

namespace Central

/-- Another robot stands between robot `i` and the end `e` of the corridor. -/
def Barred (c : Central n) (i : Fin n) (e : Bool) : Prop :=
  ∃ j, (c.robot j).pos ∈ corridor ∧ coord e (c.robot j).pos < coord e (c.robot i).pos

instance (c : Central n) (i : Fin n) (e : Bool) : Decidable (c.Barred i e) :=
  inferInstanceAs (Decidable (∃ _, _))

/-- How far a robot on the corridor has to go to item `7`.  A robot barred on one
side must take the other way; one barred on both sides keeps still. -/
def way7 (c : Central n) (i : Fin n) : Nat :=
  let x (e : Bool) := (coord e (c.robot i).pos).toNat
  if c.Barred i true then if c.Barred i false then 0 else x false + 1
  else if c.Barred i false then x true + 1
  else 16 + min (x true) (x false)

/-- How far robot `i` has to go before it changes its stage. -/
def rank (c : Central n) (i : Fin n) : Nat :=
  if (c.robot i).taskCompleted then 0
  else if IsItemCell (c.robot i).pos then 60
  else if (c.robot i).pos ∉ corridor then 40
  else if c.target i = cell7 then c.way7 i
  else gap (c.target i) (c.robot i).pos

theorem rank_corridor {c : Central n} {i : Fin n} (hopen : (c.robot i).taskCompleted = false)
    (hpos : (c.robot i).pos ∈ corridor) :
    c.rank i = if c.target i = cell7 then c.way7 i else gap (c.target i) (c.robot i).pos := by
  rw [rank, if_neg (by rw [hopen]; decide), if_neg (corridor_spec hpos).2.2.1,
    if_neg (fun hnot => hnot hpos)]

/-- The stages that are still to come. -/
def stagesLeft (c : Central n) : Nat := ∑ i, (2 - (c.robot i).stage.rank)

/-- The measure: the stages to come, then the ways to go. -/
def weight (c : Central n) : Nat := c.stagesLeft * (60 * n + 1) + ∑ i, c.rank i

variable {c : Central n} {i : Fin n}

theorem way7_le (hpos : (c.robot i).pos ∈ corridor) : c.way7 i ≤ 30 := by
  have hcoord := (corridor_spec hpos).2.2.2.2
  have h1 := hcoord true
  have h2 := hcoord false
  unfold way7
  dsimp only
  split <;> split <;> omega

/-- The definition seen from either end. -/
theorem way7_eq (c : Central n) (i : Fin n) (e : Bool) :
    c.way7 i = if c.Barred i e then
        if c.Barred i (!e) then 0 else (coord (!e) (c.robot i).pos).toNat + 1
      else if c.Barred i (!e) then (coord e (c.robot i).pos).toNat + 1
      else 16 + min (coord e (c.robot i).pos).toNat (coord (!e) (c.robot i).pos).toNat := by
  cases e with
  | true => rfl
  | false =>
    show c.way7 i = if c.Barred i false then
        if c.Barred i true then 0 else (coord true (c.robot i).pos).toNat + 1
      else if c.Barred i true then (coord false (c.robot i).pos).toNat + 1
      else 16 + min (coord false (c.robot i).pos).toNat (coord true (c.robot i).pos).toNat
    unfold way7
    rw [Nat.min_comm]
    by_cases h1 : c.Barred i true <;> by_cases h2 : c.Barred i false <;>
      simp only [h1, h2, ite_true, ite_false]

/-- Taking the way to the end `e`, or being barred on more sides, shortens the way
to item `7`. -/
theorem way7_lt {c' : Central n} (hpos' : (c'.robot i).pos ∈ corridor)
    (hbar : ∀ e, c.Barred i e → c'.Barred i e) {e : Bool}
    (hstep : coord e (c'.robot i).pos = coord e (c.robot i).pos - 1) (hfree : ¬c.Barred i e)
    (hshort : ¬c.Barred i (!e) → coord e (c.robot i).pos ≤ coord (!e) (c.robot i).pos) :
    c'.way7 i < c.way7 i := by
  have h1' := (corridor_spec hpos').2.2.2.2 e
  have hb := hbar (!e)
  have hn' := coord_not e (c'.robot i).pos
  rw [way7_eq c i e, way7_eq c' i e, if_neg hfree]
  by_cases hother : c.Barred i (!e)
  · rw [if_pos hother, if_pos (hb hother), if_pos (hb hother)]
    split <;> omega
  · have := hshort hother
    rw [if_neg hother]
    split <;> split <;> omega

theorem way7_mono {c' : Central n} (hpos : (c.robot i).pos ∈ corridor)
    (hsame : (c'.robot i).pos = (c.robot i).pos) (hbar : ∀ e, c.Barred i e → c'.Barred i e) :
    c'.way7 i ≤ c.way7 i := by
  have h1 := (corridor_spec hpos).2.2.2.2 true
  have h2 := (corridor_spec hpos).2.2.2.2 false
  unfold way7
  dsimp only
  rw [hsame]
  split <;> split <;> split <;> split <;> first | omega | tauto

end Central

namespace Carries
variable {task : Int × Int} {c : Central n} {i : Fin n}

section
variable (h : Carries task (c.robot i)) (htask : ProperTask task)
include h htask

theorem rank_le_corridor (hopen : (c.robot i).taskCompleted = false)
    (hpos : (c.robot i).pos ∈ corridor) :
    c.rank i ≤ 30 := by
  rw [Central.rank_corridor hopen hpos]
  split
  · exact Central.way7_le hpos
  · rename_i h7
    have := gap_le ((h.target_mem htask hopen).resolve_right h7) hpos
    omega

theorem rank_le_line (hopen : (c.robot i).taskCompleted = false)
    (hitem : ¬IsItemCell (c.robot i).pos) :
    c.rank i ≤ 40 := by
  by_cases hpos : (c.robot i).pos ∈ corridor
  · have := h.rank_le_corridor htask hopen hpos
    omega
  · rw [Central.rank, if_neg (by rw [hopen]; decide), if_neg hitem, if_pos hpos]

theorem rank_le : c.rank i ≤ 60 := by
  by_cases hopen : (c.robot i).taskCompleted = false
  · by_cases hitem : IsItemCell (c.robot i).pos
    · rw [Central.rank, if_neg (by rw [hopen]; decide), if_pos hitem]
    · have := h.rank_le_line htask hopen hitem
      omega
  · rw [Central.rank, if_pos (by simpa using hopen)]
    exact Nat.zero_le _

end

end Carries

/-! ## Rounds without detours -/

/-- **The state before a round without a detour**, in which a task is open and no
victim is kept still. -/
structure Plain (tasks : Fin n → Int × Int) (c : Central n) : Prop where
  task : ∀ i, ProperTask (tasks i)
  safe : c.Safe
  carries : ∀ i, Carries (tasks i) (c.robot i)
  released : c.sacrificeRobotIdx = none
  direct : ¬c.Detour
  unfinished : ∃ i, (c.robot i).taskCompleted = false

namespace Plain
variable {tasks : Fin n → Int × Int} {c : Central n}

section
variable (h : Plain tasks c)
include h

theorem exists_desired : ∃ i, c.desiredCmd i ≠ .wait := by
  refine Classical.byContradiction fun hno => h.direct (Or.inr ⟨h.unfinished, fun i => ?_⟩)
  exact Classical.byContradiction fun hi => hno ⟨i, hi⟩

/-- Robots do what they want or wait. -/
theorem command_eq {i : Fin n} (hw : c.command.get i ≠ .wait) :
    c.command.get i = c.desiredCmd i := by
  obtain ⟨k, hk⟩ := h.exists_desired
  rcases Central.decision_cases h.safe.inMap with ⟨-, -, -, hcmd⟩ | ⟨hwait, -⟩ | ⟨v, hwait, -⟩
  · rw [hcmd i] at hw ⊢
    split at hw
    · rename_i hacc
      exact if_pos hacc
    · exact absurd rfl hw
  · exact absurd (hwait k) hk
  · exact absurd (hwait k) hk

/-- **Every robot that moves approaches its target.** -/
theorem approach {i : Fin n} (hw : c.command.get i ≠ .wait) :
    Approach c.robot (c.robot i) (c.target i) (c.commandPos i) := by
  have hcmd := h.command_eq hw
  have hopen := (Central.command_open h.safe.inMap hw).1
  have hnext : c.desiredCmd i =
      getNextDirection c.robot (c.robot i) (c.target i).1 (c.target i).2 := by
    rw [Central.desiredCmd, if_neg (by rw [hopen]; decide), if_neg (by rw [h.released]; simp)]
  rw [hcmd] at hw
  have hreached : (bfs c.robot (c.robot i)).parent (c.target i).1 (c.target i).2 ≠ -1 :=
    fun hun => h.direct (Or.inl ⟨i, hun, hw⟩)
  have hne : c.target i ≠ (c.robot i).pos := by
    intro heq
    refine hw (hnext.trans ?_)
    rw [heq]
    exact getNextDirection_own c.robot (h.safe.inMap i)
  rw [Central.commandPos, hcmd, hnext]
  exact (getNextDirection_approach (h.safe.inMap i) hne hreached).2

/-- What the round makes of robot `i`. -/
theorem robot_round (i : Fin n) :
    (c.round (finRange n)).robot i = c.executed i :=
  (h.safe.round (List.Perm.refl _)).robot i

theorem pos_round (i : Fin n) :
    ((c.round (finRange n)).robot i).pos = c.commandPos i :=
  (h.safe.round (List.Perm.refl _)).pos h.safe i

theorem safe_round : (c.round (finRange n)).Safe :=
  (h.safe.round (List.Perm.refl _)).safe h.safe

theorem carries_round (i : Fin n) :
    Carries (tasks i) ((c.round (finRange n)).robot i) := by
  rw [h.robot_round i]
  exact (executed_advance (h.carries i) (h.task i).properItem).1

theorem advance_round (i : Fin n) :
    Advance (tasks i) (c.robot i) ((c.round (finRange n)).robot i) := by
  rw [h.robot_round i]
  exact (executed_advance (h.carries i) (h.task i).properItem).2

end

section SameStages
variable (hsame : ∀ i, ((c.round (finRange n)).robot i).stage = (c.robot i).stage)
include hsame

theorem completed_round (i : Fin n) :
    ((c.round (finRange n)).robot i).taskCompleted = (c.robot i).taskCompleted := by
  have := hsame i
  rw [Bool.eq_iff_iff, ← stage_eq_completed, ← stage_eq_completed, this]

section
variable {i : Fin n} (h : Plain tasks c)
include h

/-- A robot that keeps its stage keeps its target. -/
theorem target_round (hopen : (c.robot i).taskCompleted = false) :
    (c.round (finRange n)).target i = c.target i := by
  have hitem := (h.task i).properItem
  rcases Carries.stage_cases hopen with hstage | hstage
  · rw [(h.carries i).target_empty hitem hstage,
      (h.carries_round i).target_empty hitem ((hsame i).trans hstage)]
  · rw [(h.carries i).target_loaded hstage,
      (h.carries_round i).target_loaded ((hsame i).trans hstage)]

/-- A robot that keeps its stage does not arrive. -/
theorem not_arrived (hopen : (c.robot i).taskCompleted = false) :
    c.commandPos i ≠ c.target i := by
  intro heq
  refine (h.carries i).stage_of_arrival (h.task i).properItem hopen heq ?_
  rw [← h.robot_round i]
  exact hsame i

/-- **Robots on the corridor stay on it**, and move by one place at most. -/
theorem corridor_round (hpos : (c.robot i).pos ∈ corridor) :
    c.commandPos i ∈ corridor ∧
      (c.commandPos i = (c.robot i).pos ∨
        ∃ e, coord e (c.commandPos i) = coord e (c.robot i).pos - 1) := by
  by_cases hw : c.command.get i = .wait
  · rw [Central.commandPos_wait hw]
    exact ⟨hpos, Or.inl rfl⟩
  · have hopen := (Central.command_open h.safe.inMap hw).1
    have happ := h.approach hw
    have ht := (h.carries i).isTarget (h.task i) hopen
    rcases happ.of_corridor (i := i) ht rfl hpos with hnext | harrived
    · refine ⟨hnext, Or.inr ?_⟩
      rcases (onLine_of_corridor hpos).step (onLine_of_corridor hnext) happ.step with
        ⟨-, -, hstep⟩ | ⟨-, hstay⟩
      · exact hstep
      · have heq := coord_injective (e := true) hnext hpos (hstay true)
        have hopened := happ.opened
        rw [heq] at hopened
        exact absurd hopened (not_open_of_robot (j := i) hpos rfl)
    · exact absurd harrived (not_arrived hsame h hopen)

/-- **Robots on the corridor keep their order.** -/
theorem barred_round (hpos : (c.robot i).pos ∈ corridor) {e : Bool} (hbar : c.Barred i e) :
    (c.round (finRange n)).Barred i e := by
  obtain ⟨j, hj, hlt⟩ := hbar
  have hij : i ≠ j := by
    rintro rfl
    omega
  obtain ⟨hi', hmi⟩ := corridor_round hsame h hpos
  obtain ⟨hj', hmj⟩ := corridor_round hsame h hj
  refine ⟨j, by rw [h.pos_round]; exact hj', ?_⟩
  rw [h.pos_round, h.pos_round]
  have hstep : ∀ {k : Fin n}, (c.commandPos k = (c.robot k).pos ∨
      ∃ e, coord e (c.commandPos k) = coord e (c.robot k).pos - 1) →
      coord e (c.commandPos k) ≤ coord e (c.robot k).pos + 1 ∧
        coord e (c.robot k).pos - 1 ≤ coord e (c.commandPos k) := by
    intro k hk
    rcases hk with heq | ⟨e', hstep⟩
    · rw [heq]
      omega
    · have := coord_step hstep e
      omega
  have hmi := hstep hmi
  have hmj := hstep hmj
  -- they do not meet on a corridor cell, and do not exchange their cells
  have hmeet : coord e (c.commandPos i) ≠ coord e (c.commandPos j) := by
    intro heq
    have hshared := h.safe_round.shared i j hij
      (by rw [h.pos_round, h.pos_round]; exact coord_injective hi' hj' heq)
    rw [h.pos_round] at hshared
    exact (corridor_spec hi').2.2.2.1 hshared
  have hexchange : ¬(coord e (c.commandPos i) = coord e (c.robot j).pos ∧
      coord e (c.commandPos j) = coord e (c.robot i).pos) := by
    rintro ⟨h1, h2⟩
    have hne : (c.robot i).pos ≠ (c.robot j).pos := by
      intro heq
      rw [heq] at hlt
      omega
    refine (h.safe.round (List.Perm.refl _)).no_exchange h.safe hij hne ?_
    rw [h.pos_round, h.pos_round]
    exact ⟨coord_injective hi' hj h1, coord_injective hj' hpos h2⟩
  omega

/-- A robot that stays where it is has no longer way to go. -/
theorem rank_le_of_wait (hw : c.command.get i = .wait) :
    (c.round (finRange n)).rank i ≤ c.rank i := by
  have hpos : ((c.round (finRange n)).robot i).pos = (c.robot i).pos := by
    rw [h.pos_round, Central.commandPos_wait hw]
  by_cases hcorridor : (c.robot i).taskCompleted = false ∧ (c.robot i).pos ∈ corridor
  · obtain ⟨hopen, hcorridor⟩ := hcorridor
    rw [Central.rank_corridor hopen hcorridor,
      Central.rank_corridor ((completed_round hsame i).trans hopen) (hpos ▸ hcorridor),
      target_round hsame h hopen, hpos]
    split
    · exact Central.way7_mono hcorridor hpos fun _ => barred_round hsame h hcorridor
    · exact Nat.le_refl _
  · unfold Central.rank
    rw [completed_round hsame i, hpos]
    split
    · exact Nat.le_refl _
    · rename_i hopen
      have hnot : (c.robot i).pos ∉ corridor :=
        fun hc => hcorridor ⟨Bool.eq_false_iff.mpr hopen, hc⟩
      rw [if_pos hnot, if_pos hnot]

/-- On the corridor, too, a robot that moves has a shorter way to go. -/
theorem rank_lt_corridor (hw : c.command.get i ≠ .wait) (hpos : (c.robot i).pos ∈ corridor) :
    (c.round (finRange n)).rank i < c.rank i := by
  have hopen := (Central.command_open h.safe.inMap hw).1
  have happ := h.approach hw
  have ht := (h.carries i).isTarget (h.task i) hopen
  have hpos' : ((c.round (finRange n)).robot i).pos = c.commandPos i := h.pos_round i
  obtain ⟨hnext, -⟩ := corridor_round hsame h hpos
  obtain ⟨e, hstep, hgoal, hbetween⟩ := happ.side (i := i) ht rfl hpos hnext
  rw [Central.rank_corridor hopen hpos,
    Central.rank_corridor ((completed_round hsame i).trans hopen) (hpos' ▸ hnext),
    target_round hsame h hopen]
  by_cases h7 : c.target i = cell7
  · rw [if_pos h7, if_pos h7]
    rw [h7] at happ ht hbetween
    have hend := ((corridor_spec hpos).2.2.2.2 e).2
    have hfree : ¬c.Barred i e := by
      rintro ⟨j, hj, hlt⟩
      obtain ⟨g, hg, hg7, h1, h2⟩ := hbetween j hj hlt
      have hplace := coord_of_nextTo_cell7 hg hg7 e
      have := ((corridor_spec hj).2.2.2.2 e).1
      omega
    refine Central.way7_lt (hpos' ▸ hnext) (fun _ => barred_round hsame h hpos)
      (by rw [hpos']; exact hstep) hfree fun hother => ?_
    refine happ.shorter_way (i := i) ht rfl hpos hnext (fun j hj => ?_) hstep
    -- nobody else is on the corridor
    refine Classical.byContradiction fun hne => ?_
    have hplace : coord e (c.robot j).pos ≠ coord e (c.robot i).pos :=
      fun heq => hne (coord_injective hj hpos heq)
    rcases Int.lt_or_gt_of_ne hplace with hlt | hgt
    · exact hfree ⟨j, hj, hlt⟩
    · refine hother ⟨j, hj, ?_⟩
      rw [coord_not, coord_not]
      omega
  · rw [if_neg h7, if_neg h7, hpos']
    refine gap_lt (((h.carries i).target_mem (h.task i) hopen).resolve_right h7) hpos hnext hstep
      (fun hadj => ?_) hgoal
    exact not_arrived hsame h hopen (happ.eq_of_nextTo hadj)

/-- **Every robot that moves has a shorter way to go.** -/
theorem rank_lt_of_move (hw : c.command.get i ≠ .wait) :
    (c.round (finRange n)).rank i < c.rank i := by
  by_cases hpos : (c.robot i).pos ∈ corridor
  · exact rank_lt_corridor hsame h hw hpos
  have hopen := (Central.command_open h.safe.inMap hw).1
  have hopen' := (completed_round hsame i).trans hopen
  have happ := h.approach hw
  have ht := (h.carries i).isTarget (h.task i) hopen
  have hline := happ.onLine ht (not_arrived hsame h hopen)
  have hcarries := h.carries_round i
  have hrank : c.rank i = if IsItemCell (c.robot i).pos then 60 else 40 := by
    rw [Central.rank, if_neg (by rw [hopen]; decide), if_pos hpos]
  rw [hrank]
  split
  · -- a robot that leaves the cell of its item
    have := hcarries.rank_le_line (h.task i) hopen' (by rw [h.pos_round i]; exact hline.2.2)
    omega
  · -- a robot that leaves a shared place
    rename_i hitem
    have honLine : OnLine (c.robot i).pos := ⟨h.safe.inMap i, h.safe.notWall i, hitem⟩
    have hshared := honLine.cases.resolve_left hpos
    have hnext := (leave_shared honLine hshared happ.step happ.opened).1
    have := hcarries.rank_le_corridor (h.task i) hopen' (by rw [h.pos_round i]; exact hnext)
    omega

end

end SameStages

/-- **A round without a detour lowers the measure.** -/
theorem weight_lt (h : Plain tasks c) : (c.round (finRange n)).weight < c.weight := by
  have hle : ∀ i, 2 - ((c.round (finRange n)).robot i).stage.rank ≤
      2 - (c.robot i).stage.rank := fun i => Nat.sub_le_sub_left (h.advance_round i).rank_le 2
  unfold Central.weight
  by_cases hsame : ∀ i, ((c.round (finRange n)).robot i).stage = (c.robot i).stage
  · have hstages : (c.round (finRange n)).stagesLeft = c.stagesLeft :=
      Finset.sum_congr rfl fun i _ => by rw [hsame i]
    obtain ⟨i, hi, -⟩ := Central.command_of_desired h.safe.inMap h.exists_desired
    have hways : ∑ i, (c.round (finRange n)).rank i < ∑ i, c.rank i := by
      refine Finset.sum_lt_sum (fun j _ => ?_) ⟨i, Finset.mem_univ i, rank_lt_of_move hsame h hi⟩
      by_cases hj : c.command.get j = .wait
      · exact rank_le_of_wait hsame h hj
      · exact (rank_lt_of_move hsame h hj).le
    rw [hstages]
    omega
  · obtain ⟨i, hi⟩ := Classical.not_forall.mp hsame
    have hstages : (c.round (finRange n)).stagesLeft < c.stagesLeft := by
      refine Finset.sum_lt_sum (fun j _ => hle j) ⟨i, Finset.mem_univ i, ?_⟩
      exact (h.advance_round i).left_lt hi
    have hways : ∑ i, (c.round (finRange n)).rank i ≤ 60 * n := by
      calc ∑ i, (c.round (finRange n)).rank i ≤ ∑ _i : Fin n, 60 :=
            Finset.sum_le_sum fun j _ => (h.carries_round j).rank_le (h.task j)
        _ = 60 * n := by simp [Nat.mul_comm]
    have hmul := Nat.mul_le_mul_right (60 * n + 1) hstages
    rw [Nat.succ_mul] at hmul
    omega

end Plain

/-! ## Which simulations end -/

/-- Robots that are done stay done. -/
theorem completed_rounds {i : Fin n} {k m : Nat} (hkm : k ≤ m)
    (h : ((rounds tasks k).robot i).taskCompleted = true) :
    ((rounds tasks m).robot i).taskCompleted = true := by
  refine TransitionSystem.keep (P := fun c : Central n => (c.robot i).taskCompleted = true) hkm
    (fun t _ _ ht => ?_) h
  rw [robot_rounds, Central.executed, if_pos ht]
  exact ht

theorem allCompleted_iff : c.allCompleted = true ↔
    ∀ i, (c.robot i).taskCompleted = true ∧ (c.robot i).currentPayload = 0 := by
  rw [Central.allCompleted, List.all_eq_true]
  exact ⟨fun h i => of_decide_eq_true (h i (List.mem_finRange i)),
    fun h i _ => decide_eq_true (h i)⟩

/-- When every task is done there are no detours. -/
theorem Central.not_detour (h : ∀ i, (c.robot i).taskCompleted = true) :
    ¬c.Detour := by
  rintro (⟨i, -, hi⟩ | ⟨⟨i, hi⟩, -⟩)
  · exact hi (if_pos (h i))
  · rw [h i] at hi
    cases hi

/-- A round without a detour leaves no victim. -/
theorem Central.Safe.released_round (h : c.Safe) (hdirect : ¬c.Detour)
    (hopen : ∃ i, (c.robot i).taskCompleted = false) :
    (c.round (finRange n)).sacrificeRobotIdx = none := by
  refine (h.round (List.Perm.refl _)).sacrifice.trans ?_
  rcases decision_cases h.inMap with ⟨-, hnone, -⟩ | ⟨-, -, hnone, -⟩ | ⟨v, hwait, -⟩
  · exact hnone
  · exact hnone
  · exact absurd (Or.inr ⟨hopen, hwait⟩) hdirect

/-- While a task is open, every round after one without a detour is measured. -/
theorem plain_rounds (htask : ∀ i, ProperTask (tasks i)) {N : Nat}
    (hdirect : ∀ m, N ≤ m → ¬(rounds tasks m).Detour)
    (hopen : ∀ m, ∃ i, ((rounds tasks m).robot i).taskCompleted = false) {m : Nat} (hm : N ≤ m) :
    Plain tasks (rounds tasks (m + 1)) where
  task := htask
  safe := safe_rounds tasks (m + 1)
  carries i := carries_rounds (fun i => (htask i).properItem) i (m + 1)
  released := (safe_rounds tasks m).released_round (hdirect m hm) (hopen m)
  direct := hdirect (m + 1) (by omega)
  unfinished := hopen (m + 1)

/-- **A simulation ends if and only if it makes finitely many detours.**  For every
list of tasks whose items are `1` to `7` and whose destinations are `A`, `B` or `C`,
some round finds all tasks completed and all robots empty if and only if, from some
round on, no robot falls back to a nearest reachable cell and no victim is
needed. -/
theorem ends_iff (tasks : Fin n → Int × Int) (htask : ∀ i, ProperTask (tasks i)) :
    (∃ k, (rounds tasks k).allCompleted = true) ↔
      ∃ N, ∀ m, N ≤ m → ¬(rounds tasks m).Detour := by
  constructor
  · rintro ⟨k, hk⟩
    refine ⟨k, fun m hm => Central.not_detour fun i => ?_⟩
    exact completed_rounds hm (allCompleted_iff.mp hk i).1
  · rintro ⟨N, hdirect⟩
    refine Classical.byContradiction fun hno => ?_
    have hopen : ∀ m, ∃ i, ((rounds tasks m).robot i).taskCompleted = false := by
      intro m
      refine Classical.byContradiction fun hall => hno ⟨m, allCompleted_iff.mpr fun i => ?_⟩
      have hdone : ((rounds tasks m).robot i).taskCompleted = true := by
        rw [← Bool.not_eq_false]
        exact fun hi => hall ⟨i, hi⟩
      exact ⟨hdone, (carries_rounds (fun i => (htask i).properItem) i m).completed hdone⟩
    -- the measure would fall for ever
    have hfall : ∀ k, (rounds tasks (N + 1 + k)).weight + k ≤ (rounds tasks (N + 1)).weight := by
      intro k
      induction k with
      | zero => exact Nat.le_refl _
      | succ k ih =>
        have hlt := (plain_rounds htask hdirect hopen (show N ≤ N + k by omega)).weight_lt
        rw [show N + k + 1 = N + 1 + k by omega] at hlt
        have : (rounds tasks (N + 1 + (k + 1))).weight < (rounds tasks (N + 1 + k)).weight := hlt
        omega
    have := hfall ((rounds tasks (N + 1)).weight + 1)
    omega

/-- One robot fetches item `1` for `A` without a detour. -/
theorem ends_iff_single :
    let tasks : Fin 1 → Int × Int := fun _ => (1, chr 'A')
    (∀ i, ProperTask (tasks i)) ∧ ∃ N, ∀ m, N ≤ m → ¬(rounds tasks m).Detour := by
  intro tasks
  have htask : ∀ i, ProperTask (tasks i) := fun _ => by decide
  exact ⟨htask, (ends_iff tasks htask).mp ⟨12, by decide +kernel⟩⟩

/-! ## Every run is the synchronous simulation -/

/-- A task is open before each of the first `k` rounds. -/
def OpenUntil (tasks : Fin n → Int × Int) (k : Nat) : Prop :=
  ∀ j, j < k → (rounds tasks j).allCompleted = false

/-- The state is that between two synchronous rounds, or in the middle of one. -/
def InRound (tasks : Fin n → Int × Int) (s : State n) : Prop :=
  match s.phase with
  | .roundStart => ∃ k, s.central = rounds tasks k ∧ OpenUntil tasks k
  | .executing _ cmds pending => ∃ k, cmds = (rounds tasks k).command ∧ OpenUntil tasks (k + 1) ∧
      pending.Nodup ∧ Midround (rounds tasks k) pending s.central
  | .poweredOff => ∃ k, s.central = rounds tasks k ∧ OpenUntil tasks k ∧
      (rounds tasks k).allCompleted = true

theorem inRound_step {s s' : State n} {e : Event n} (h : InRound tasks s) (hs : Step s e s') :
    InRound tasks s' := by
  cases hs with
  | shutdown c hall =>
    obtain ⟨k, rfl, hopen⟩ := h
    rw [(safe_rounds tasks k).readStatuses_eq] at hall ⊢
    exact ⟨k, rfl, hopen, hall⟩
  | command c hall =>
    obtain ⟨k, rfl, hopen⟩ := h
    rw [(safe_rounds tasks k).readStatuses_eq] at hall ⊢
    refine ⟨k, rfl, fun j hj => ?_, List.nodup_finRange n, (safe_rounds tasks k).midround⟩
    rcases Nat.lt_succ_iff_lt_or_eq.mp hj with hlt | rfl
    · exact hopen j hlt
    · exact hall
  | execute c start cmds pending i hi =>
    obtain ⟨k, rfl, hopen, hnd, hm⟩ := h
    exact ⟨k, rfl, hopen, hnd.erase i, hm.execute (safe_rounds tasks k) hnd hi⟩
  | finish c start cmds =>
    -- the order in which the robots took their turns is not seen any more
    obtain ⟨k, -, hopen, -, hm⟩ := h
    exact ⟨k + 1, hm.ext ((safe_rounds tasks k).round (.refl _)), hopen⟩

/-- **Every run is the synchronous simulation.**  Whatever the order in which the robots take their
turns in each round: the states at the beginnings of rounds are those of the synchronous rounds up
to the first that finds all tasks completed, and the power goes off there and nowhere else. -/
theorem runs_are_rounds (tasks : Fin n → Int × Int) (c : Central n) :
    ((system tasks).Reachable ⟨c, .roundStart⟩ ↔ ∃ k, c = rounds tasks k ∧ OpenUntil tasks k) ∧
    ((system tasks).Reachable ⟨c, .poweredOff⟩ ↔ ∃ k, c = rounds tasks k ∧ OpenUntil tasks k ∧
      (rounds tasks k).allCompleted = true) := by
  have hinv : ∀ {s}, (system tasks).Reachable s → InRound tasks s := fun h =>
    h.invariant (fun _ hs => hs ▸ ⟨0, rfl, fun j hj => absurd hj (Nat.not_lt_zero j)⟩)
      fun _ _ _ => inRound_step
  have hstart : ∀ k, OpenUntil tasks k →
      (system tasks).Reachable ⟨rounds tasks k, .roundStart⟩ := by
    intro k hopen
    induction k with
    | zero => exact .init rfl
    | succ k ih =>
      exact reachable_round (ih fun j hj => hopen j (Nat.lt_succ_of_lt hj))
        (hopen k (Nat.lt_succ_self k)) (.refl _)
  refine ⟨⟨hinv, ?_⟩, hinv, ?_⟩
  · rintro ⟨k, rfl, hopen⟩
    exact hstart k hopen
  · rintro ⟨k, rfl, hopen, hall⟩
    have hsame := (safe_rounds tasks k).readStatuses_eq
    have hoff := Step.shutdown (rounds tasks k) (by rw [hsame]; exact hall)
    rw [hsame] at hoff
    exact .step (hstart k hopen) hoff

/-! ## A simulation that does not end -/

/-- Two robots that fetch item `1` for `C` and `B`, and one that fetches item `7`
for `B`. -/
def livelockTasks : Fin 3 → Int × Int := [(1, chr 'C'), (7, chr 'B'), (1, chr 'B')].get

/-- The state after eleven rounds: both loaded robots are cut off from their
destinations, the first by the empty one, which is cut off from item `1` by it. -/
def livelockState : Central 3 :=
  let robots : Vector Robot 3 :=
    #v[⟨1, chr 'C', 3, 1, 1, 1, false⟩, ⟨7, chr 'B', 1, 1, 7, 7, false⟩,
       ⟨1, chr 'B', 5, 1, 1, 0, false⟩]
  { robots := robots
    fromRobots := robots.map Robot.status
    waitSteps := #v[0, 0, 0]
    sacrificeRobotIdx := none }

theorem rounds_livelock : rounds livelockTasks 11 = livelockState := by decide +kernel

/-- The three fall back, and come back. -/
theorem livelock_cycle :
    (livelockState.round (finRange 3)).round (finRange 3) = livelockState := by
  decide +kernel

/-- **Livelock**: a list of proper tasks that is never completed. -/
theorem livelock : (∀ i, ProperTask (livelockTasks i)) ∧
    ∀ k, (rounds livelockTasks k).allCompleted = false := by
  refine ⟨by decide +kernel, fun k => ?_⟩
  have hcycle : ∀ j, rounds livelockTasks (11 + 2 * j) = livelockState := by
    intro j
    induction j with
    | zero => exact rounds_livelock
    | succ j ih =>
      rw [show 11 + 2 * (j + 1) = 11 + 2 * j + 1 + 1 by omega, rounds, rounds, ih]
      exact livelock_cycle
  rw [← Bool.not_eq_true]
  intro hall
  have hdone := completed_rounds (show k ≤ 11 + 2 * k by omega) (allCompleted_iff.mp hall 0).1
  rw [hcycle k] at hdone
  cases hdone

end Pintos.Warehouse
