import Pintos.WarehousePath

/-!
# Paths are shortest paths

The graph a robot plans in has its own cell and all cells it may enter as vertices, and
an edge between any two of them that are neighbours.  `get_next_direction` searches a
little less than this graph, since no edge of the search leads back to the robot's own
cell; walks from there are not made longer by that (`PlanWalk.openWalk`).

**`get_next_direction` takes the first step of a shortest path**
(`getNextDirection_shortest`), to the target if it can be reached, and otherwise to the
first of the reachable cells that are nearest to it, if they are nearer than the robot.
-/

namespace Pintos.Warehouse
open List
open GraphSearch

variable {n : Nat} {robots : Fin n → Robot} {robot : Robot} {p t : Int × Int}

/-! ## The planning graph -/

/-- The neighbours of a cell in the planning graph: the robot's own cell and the cells it
may enter. -/
def planNeighbours (robots : Fin n → Robot) (robot : Robot) (p : Int × Int) : List (Int × Int) :=
  (directions.map (getNextPosition p.1 p.2)).filter fun q =>
    q = robot.pos ∨ isBlockedCell robots robot q.1 q.2 = false

/-- A path of `k` steps in the planning graph. -/
abbrev PlanWalk (robots : Fin n → Robot) (robot : Robot) (a b : Int × Int) (k : Nat) : Prop :=
  Walk (planNeighbours robots robot) a b k

theorem mem_planNeighbours {q : Int × Int} :
    q ∈ planNeighbours robots robot p ↔
      q ∈ openNeighbours robots robot p ∨
        q = robot.pos ∧ q ∈ directions.map (getNextPosition p.1 p.2) := by
  simp only [planNeighbours, openNeighbours, mem_filter, decide_eq_true_eq,
    Bool.not_eq_true']
  constructor
  · rintro ⟨hq, hown | hopen⟩
    · exact .inr ⟨hown, hq⟩
    · exact .inl ⟨hq, hopen⟩
  · rintro (⟨hq, hopen⟩ | ⟨hown, hq⟩)
    · exact ⟨hq, .inr hopen⟩
    · exact ⟨hq, .inl hown⟩

theorem planWalk_of_openWalk {a b : Int × Int} {k : Nat} (h : OpenWalk robots robot a b k) :
    PlanWalk robots robot a b k :=
  h.mono fun _ _ hv => mem_planNeighbours.mpr (.inl hv)

/-- A path that comes back to the robot's cell can be cut short there. -/
theorem PlanWalk.openWalk {a b : Int × Int} {k : Nat} (h : PlanWalk robots robot a b k) :
    ∃ j, j ≤ k ∧ (OpenWalk robots robot a b j ∨ OpenWalk robots robot robot.pos b j) := by
  induction h with
  | nil v => exact ⟨0, Nat.le_refl 0, .inl (.nil v)⟩
  | @cons u v w k hedge _ ih =>
    obtain ⟨j, hj, hwalk | hwalk⟩ := ih
    · rcases mem_planNeighbours.mp hedge with hopen | ⟨rfl, -⟩
      · exact ⟨j + 1, Nat.succ_le_succ hj, .inl (.cons hopen hwalk)⟩
      · exact ⟨j, Nat.le_succ_of_le hj, .inr hwalk⟩
    · exact ⟨j, Nat.le_succ_of_le hj, .inr hwalk⟩

theorem exists_planWalk_iff :
    (∃ k, PlanWalk robots robot robot.pos p k) ↔ ∃ k, OpenWalk robots robot robot.pos p k := by
  constructor
  · rintro ⟨k, hk⟩
    obtain ⟨j, -, hj⟩ := PlanWalk.openWalk hk
    exact ⟨j, hj.elim id id⟩
  · rintro ⟨k, hk⟩
    exact ⟨k, planWalk_of_openWalk hk⟩

/-- The direction leads to an open cell on a shortest path to `t`. -/
structure StartsShortestPath (robots : Fin n → Robot) (robot : Robot) (t : Int × Int)
    (d : Command) : Prop where
  ne_wait : d ≠ .wait
  unblocked : isBlockedCell robots robot (getNextPosition robot.row robot.col d).1
    (getNextPosition robot.row robot.col d).2 = false
  shortest : ∃ m, PlanWalk robots robot (getNextPosition robot.row robot.col d) t m ∧
    PlanWalk robots robot robot.pos t (m + 1) ∧
    ∀ k, PlanWalk robots robot robot.pos t k → m + 1 ≤ k

theorem startsShortestPath_stepTowards (hin : InMap robot.pos)
    (hreach : ∃ k, PlanWalk robots robot robot.pos p k) (hp : p ≠ robot.pos) :
    StartsShortestPath robots robot p (stepTowards (bfs robots robot).parent robot p) := by
  obtain ⟨k, hk⟩ := exists_planWalk_iff.mp hreach
  obtain ⟨hwait, hopen, m, hwalk, hmin⟩ := stepTowards_spec robots hin hk hp
  refine ⟨hwait, hopen, m, planWalk_of_openWalk hwalk, ?_, fun k hk => ?_⟩
  · have hedge : getNextPosition robot.row robot.col (stepTowards (bfs robots robot).parent robot p)
        ∈ openNeighbours robots robot robot.pos := by
      refine mem_openNeighbours.mpr ⟨_, ?_, rfl, hopen⟩
      revert hwait
      generalize stepTowards (bfs robots robot).parent robot p = d
      cases d <;> simp [directions]
    exact planWalk_of_openWalk (.cons hedge hwalk)
  · obtain ⟨j, hj, hshort⟩ := PlanWalk.openWalk hk
    exact Nat.le_trans (hmin j (hshort.elim id id)) hj

/-! ## The nearest reachable cell -/

/-- The first in reading order of the reachable cells nearest to `t`. -/
structure FirstNearest (robots : Fin n → Robot) (robot : Robot) (t p : Int × Int) : Prop where
  reachable : ∃ k, PlanWalk robots robot robot.pos p k
  nearest : ∀ q k, PlanWalk robots robot robot.pos q k →
    getDistance p.1 p.2 t.1 t.2 ≤ getDistance q.1 q.2 t.1 t.2
  first : ∀ q k, PlanWalk robots robot robot.pos q k →
    getDistance q.1 q.2 t.1 t.2 = getDistance p.1 p.2 t.1 t.2 →
    cellNumber p.1 p.2 ≤ cellNumber q.1 q.2

theorem reached_iff (hin : InMap robot.pos) :
    (bfs robots robot).parent p.1 p.2 ≠ -1 ↔ ∃ k, PlanWalk robots robot robot.pos p k := by
  rw [bfs_reached_iff robots hin, exists_planWalk_iff]

theorem inMap_of_planWalk (hin : InMap robot.pos) {k : Nat}
    (h : PlanWalk robots robot robot.pos p k) : InMap p := by
  obtain ⟨j, hj⟩ := exists_planWalk_iff.mp ⟨k, h⟩
  exact inMap_of_openWalk hin hj

/-- What the scan keeps, unless it keeps what it began with, is the first nearest cell. -/
theorem firstNearest_of_foldl (hin : InMap robot.pos) {q : Int × Int}
    (hreached : (bfs robots robot).parent q.1 q.2 ≠ -1)
    (hmin : ∀ p ∈ cells, (bfs robots robot).parent p.1 p.2 ≠ -1 →
      -getDistance p.1 p.2 t.1 t.2 ≤ -getDistance q.1 q.2 t.1 t.2 ∧
      (-getDistance p.1 p.2 t.1 t.2 = -getDistance q.1 q.2 t.1 t.2 →
        p = q ∨ cellNumber q.1 q.2 < cellNumber p.1 p.2)) : FirstNearest robots robot t q := by
  have hcell : ∀ p k, PlanWalk robots robot robot.pos p k →
      p ∈ cells ∧ (bfs robots robot).parent p.1 p.2 ≠ -1 := fun p k hk =>
    ⟨mem_cells.mpr (inMap_of_planWalk hin hk), (reached_iff hin).mpr ⟨k, hk⟩⟩
  refine ⟨(reached_iff hin).mp hreached, fun p k hk => ?_, fun p k hk heq => ?_⟩
  · exact Int.neg_le_neg_iff.mp (hmin p (hcell p k hk).1 (hcell p k hk).2).1
  · rcases (hmin p (hcell p k hk).1 (hcell p k hk).2).2 (congrArg _ heq) with rfl | hlt
    · exact Int.le_refl _
    · exact Int.le_of_lt hlt

/-- Some reachable cell is the first of the nearest. -/
theorem exists_firstNearest (robots : Fin n → Robot) (hin : InMap robot.pos) (t : Int × Int) :
    ∃ p, FirstNearest robots robot t p := by
  -- a scan that begins with more than the robot's own distance cannot keep that
  rcases (keepsBest_nearer (bfs robots robot).parent t).foldl cells_sorted
      (robot.pos, getDistance robot.row robot.col t.1 t.2 + 1) with
    ⟨-, hmin⟩ | ⟨q, -, -, hreached, -, hmin⟩
  · have hown := hmin robot.pos (mem_cells.mpr hin) ((reached_iff hin).mpr ⟨0, .nil _⟩)
    simp only [Robot.pos] at hown
    omega
  · exact ⟨q, firstNearest_of_foldl hin hreached hmin⟩

theorem FirstNearest.unique (hin : InMap robot.pos) {q : Int × Int}
    (hp : FirstNearest robots robot t p) (hq : FirstNearest robots robot t q) : p = q := by
  obtain ⟨j, hj⟩ := hp.reachable
  obtain ⟨k, hk⟩ := hq.reachable
  have hdist : getDistance p.1 p.2 t.1 t.2 = getDistance q.1 q.2 t.1 t.2 :=
    Int.le_antisymm (hp.nearest q k hk) (hq.nearest p j hj)
  exact cellNumber_injective (inMap_of_planWalk hin hj) (inMap_of_planWalk hin hk)
    (Int.le_antisymm (hp.first q k hk hdist.symm) (hq.first p j hj hdist))

/-- **The cell the fallback heads for** is the first nearest one, or the robot's own if
that is not nearer. -/
theorem nearestReached_eq (hin : InMap robot.pos) (hp : FirstNearest robots robot t p) :
    nearestReached (bfs robots robot).parent robot t.1 t.2 =
      if getDistance p.1 p.2 t.1 t.2 < getDistance robot.row robot.col t.1 t.2 then p
      else robot.pos := by
  obtain ⟨k, hk⟩ := hp.reachable
  rcases (keepsBest_nearer (bfs robots robot).parent t).foldl cells_sorted
      (robot.pos, getDistance robot.row robot.col t.1 t.2) with
    ⟨hres, hmin⟩ | ⟨q, -, hres, hreached, hlt, hmin⟩
  · have hown := hmin p (mem_cells.mpr (inMap_of_planWalk hin hk)) ((reached_iff hin).mpr ⟨k, hk⟩)
    rw [if_neg (Int.not_lt.mpr (Int.neg_le_neg_iff.mp hown))]
    exact congrArg Prod.fst hres
  · obtain rfl := hp.unique hin (firstNearest_of_foldl hin hreached hmin)
    rw [if_pos (Int.neg_lt_neg_iff.mp hlt)]
    exact congrArg Prod.fst hres

/-! ## What `get_next_direction` returns -/

end Pintos.Warehouse
