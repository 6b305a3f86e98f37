import Pintos.WarehouseRun

/-!
# Somebody moves

If nobody wants to move and no victim can make room, every robot that is not done
is shut in: all cells next to it are blocked (`shut_in`).  But from every cell of
the map a way over corridor cells leads to a cell next to a shared place, which is
open to any number of robots (`exists_exit`).  Whoever is shut in is so by another
robot further down this way, which is not done either, and is shut in too: the
last one is not.
-/

namespace Pintos.Warehouse

variable {n : Nat}

/-! ## Ways out -/

/-- How far a cell is from a shared place: from `C` in the left half of the map,
from `W` in the right half. -/
def exitRank (p : Int × Int) : Nat :=
  if isSharedPlace p.1 p.2 then 20
  else if p.2 ≤ 3 then (getDistance p.1 p.2 rowC colC).toNat
  else (getDistance p.1 p.2 rowW colW).toNat

/-- A cell that only another robot can block. -/
def IsCorridor (p : Int × Int) : Prop := InMap p ∧ ¬IsWall p ∧ ¬IsItemCell p

instance (p : Int × Int) : Decidable (IsCorridor p) := inferInstanceAs (Decidable (_ ∧ _ ∧ _))

/-- **Every cell has an exit**: next to it is a shared place, or a corridor cell
that is nearer to one. -/
theorem exists_exit {p : Int × Int} (hin : InMap p) (hwall : ¬IsWall p) :
    ∃ d ∈ directions, IsCorridor (getNextPosition p.1 p.2 d) ∧
      (IsShared (getNextPosition p.1 p.2 d) ∨
        exitRank (getNextPosition p.1 p.2 d) < exitRank p) := by
  revert hwall
  refine forall_inMap (P := fun p => ¬IsWall p → ∃ d ∈ directions,
    IsCorridor (getNextPosition p.1 p.2 d) ∧ (IsShared (getNextPosition p.1 p.2 d) ∨
      exitRank (getNextPosition p.1 p.2 d) < exitRank p)) ?_ hin
  decide +kernel

/-- A corridor cell is blocked by a robot, and is no shared place. -/
theorem IsCorridor.of_blocked {p : Int × Int} (h : IsCorridor p) {robots : Fin n → Robot}
    {robot : Robot} (hblocked : isBlockedCell robots robot p.1 p.2 = true) :
    ¬IsShared p ∧ ∃ j, (robots j).pos = p := by
  have hnot : ¬isBlockedCell robots robot p.1 p.2 = false := by
    rw [hblocked]
    decide
  rw [isBlockedCell_eq_false_iff] at hnot
  refine ⟨fun hs => hnot ⟨h.1, h.2.1, Or.inl hs⟩, ?_⟩
  refine Classical.byContradiction fun hfree => hnot ⟨h.1, h.2.1, Or.inr ⟨?_, ?_⟩⟩
  · exact fun j hj => hfree ⟨j, hj⟩
  · exact fun hitem => absurd hitem h.2.2

namespace Central
variable {c : Central n}

/-- Nobody can move: no cell next to the robot is open to it. -/
def ShutIn (c : Central n) (i : Fin n) : Prop :=
  ∀ d ∈ directions, isBlockedCell c.robot (c.robot i)
    (getNextPosition (c.robot i).row (c.robot i).col d).1
    (getNextPosition (c.robot i).row (c.robot i).col d).2 = true

/-- A robot that wants no move and could not make room either is shut in. -/
theorem shut_in (hin : ∀ i, InMap (c.robot i).pos) {i : Fin n}
    (hnext : getNextDirection c.robot (c.robot i) (c.target i).1 (c.target i).2 = .wait)
    (hesc : c.escape i = .wait) : c.ShutIn i := by
  intro d hd
  refine Classical.byContradiction fun hopen => ?_
  rw [Bool.not_eq_true] at hopen
  have hwalk : OpenWalk c.robot (c.robot i) (c.robot i).pos
      (getNextPosition (c.robot i).row (c.robot i).col d) 1 :=
    .cons (mem_openNeighbours.mpr ⟨d, hd, rfl, hopen⟩) (.nil _)
  have hfar := getNextDirection_wait c.robot (hin i) hnext hwalk
  have hne : d ≠ .wait := by
    rintro rfl
    exact absurd hd (by decide)
  rcases getEscapeDirection_spec c.robot (c.robot i) (c.target i) with ⟨-, hno⟩ | hgood
  · exact hno d hd ⟨hne, hopen, hfar⟩
  · exact hgood.1 hesc

/-- **Robots that are not done are not all shut in.** -/
theorem Safe.not_shut_in (h : c.Safe)
    (hshut : ∀ i, (c.robot i).taskCompleted = false → c.ShutIn i) (i : Fin n) :
    (c.robot i).taskCompleted = true := by
  -- by induction on how far the robot is from its exit
  induction hk : exitRank (c.robot i).pos using Nat.strongRecOn generalizing i with
  | _ k ih =>
    refine Classical.byContradiction fun hopen => ?_
    obtain ⟨d, hd, hcorridor, hexit⟩ := exists_exit (h.inMap i) (h.notWall i)
    obtain ⟨hshared, j, hj⟩ :=
      hcorridor.of_blocked (hshut i (Bool.eq_false_iff.mpr hopen) d hd)
    have hlt := hexit.resolve_left hshared
    have hdone := ih (exitRank (c.robot j).pos) (by rw [hj, ← hk]; exact hlt) j rfl
    exact hshared (hj ▸ h.completed j hdone)

/-- If everybody is told to wait, nobody wants to move and there is no victim. -/
theorem Safe.all_wait (h : c.Safe) (hwait : ∀ i : Fin n, c.command.get i = .wait) :
    (∀ i, c.desiredCmd i = .wait) ∧ c.chooseDeadlockVictim = none ∧
      c.decision.sacrificeRobotIdx = none := by
  rcases decision_cases h.inMap with ⟨hd, -⟩ | ⟨hd, hv, hs, -⟩ | ⟨v, -, hv, -, -, hcmd⟩
  · obtain ⟨i, hi, -⟩ := command_of_desired h.inMap hd
    exact absurd (hwait i) hi
  · exact ⟨hd, hv, hs⟩
  · have hesc := (chooseDeadlockVictim_some hv).2
    have := hcmd v
    rw [if_pos rfl, hwait v] at this
    exact absurd this.symm hesc

/-- **Somebody moves** in a round that begins without a victim. -/
theorem Safe.exists_move (h : c.Safe) (hnone : c.sacrificeRobotIdx = none)
    (hopen : ∃ i, (c.robot i).taskCompleted = false) : ∃ i : Fin n, c.command.get i ≠ .wait := by
  refine Classical.byContradiction fun hno => ?_
  have hwait : ∀ i : Fin n, c.command.get i = .wait :=
    fun i => Classical.byContradiction fun hi => hno ⟨i, hi⟩
  obtain ⟨hd, hv, -⟩ := h.all_wait hwait
  obtain ⟨i, hi⟩ := hopen
  have hdone := h.not_shut_in (fun j hj => ?_) i
  · rw [hi] at hdone
    cases hdone
  · refine shut_in h.inMap ?_ (chooseDeadlockVictim_none hv (h.waits j) hj)
    have := hd j
    rwa [desiredCmd, if_neg (by rw [hj]; decide), if_neg (by rw [hnone]; simp)] at this

end Central

/-- **Deadlock freedom of the controller.**  While a task is unfinished, a round
that begins without a victim tells somebody to move; and a round in which everybody
waits is followed, whatever the order of the executions, by one in which somebody is
told to move. -/
theorem deadlock_free (tasks : Fin n → Int × Int) {c : Central n}
    (h : (system tasks).Reachable ⟨c, .roundStart⟩)
    (hopen : ∃ i, (c.robot i).taskCompleted = false) :
    (c.sacrificeRobotIdx = none → ∃ i : Fin n, c.command.get i ≠ .wait) ∧
    ((∀ i : Fin n, c.command.get i = .wait) →
      ∀ order : List (Fin n), order.Perm (List.finRange n) →
      (∃ i, ((c.round order).robot i).taskCompleted = false) →
      ∃ i : Fin n, (c.round order).command.get i ≠ .wait) := by
  have hsafe : c.Safe := inv_reachable h
  refine ⟨fun hnone => hsafe.exists_move hnone hopen, fun hwait order hperm hopen' => ?_⟩
  have hsafe' : (c.round order).Safe := (hsafe.round hperm).safe hsafe
  -- a round in which everybody waits leaves no victim
  have hnone := (hsafe.round hperm).sacrifice.trans (hsafe.all_wait hwait).2.2
  exact hsafe'.exists_move hnone hopen'

theorem deadlock_free_start :
    let tasks : Fin 3 → Int × Int := [(1, chr 'A'), (4, chr 'B'), (7, chr 'C')].get
    let c := Central.start tasks
    (∃ i, (c.robot i).taskCompleted = false) ∧ ∃ i : Fin 3, c.command.get i ≠ .wait := by
  intro tasks c
  have hopen : ∃ i, (c.robot i).taskCompleted = false := ⟨0, rfl⟩
  exact ⟨hopen, (deadlock_free tasks (.init rfl) hopen).1 rfl⟩

end Pintos.Warehouse
