import Mathlib.Data.Int.Order.Basic
import Pintos.FirstBest
import Pintos.GraphSearch
import Pintos.WarehouseMap

/-!
# Path planning

`getNextDirection` runs a breadth-first search from the robot's cell over the
cells it may enter and returns the first step of the path found; when the target
was not reached it heads for the reached cell nearest to it instead.
`getEscapeDirection` picks the step that leads a deadlock's victim away from its
target.
-/

namespace Pintos.Warehouse
open List

variable {n : Nat}

/-! ## `get_next_direction` -/

/-- The search's arrays: `parent[row][col]` is `-1` for a cell not reached, else
the number of the cell it was reached from; `queue` is the written part of
`queue_r` and `queue_c`, so `tail` is its length. -/
structure Bfs where
  parent : Int → Int → Int
  queue : List (Int × Int)
  head : Nat

/-- The number of a cell. -/
def cellNumber (row col : Int) : Int := row * mapWidth + col

/-- `parent[row][col] = value`. -/
def setParent (parent : Int → Int → Int) (row col value : Int) : Int → Int → Int :=
  fun r c => if r = row ∧ c = col then value else parent r c

/-- Only the robot's own cell is reached, from itself. -/
def Bfs.start (robot : Robot) : Bfs where
  parent := setParent (fun _ _ => -1) robot.row robot.col (cellNumber robot.row robot.col)
  queue := [(robot.row, robot.col)]
  head := 0

/-- One turn of the inner loop: the neighbour of `(row, col)` in direction `d`
joins the queue if it is open and new. -/
def Bfs.look (robots : Fin n → Robot) (robot : Robot) (row col : Int) (b : Bfs) (d : Command) :
    Bfs :=
  let next := getNextPosition row col d
  if isBlockedCell robots robot next.1 next.2 ∨ b.parent next.1 next.2 ≠ -1 then b
  else
    { b with
      parent := setParent b.parent next.1 next.2 (cellNumber row col)
      queue := b.queue ++ [next] }

/-- The outer loop, at most `fuel` turns of it. -/
def Bfs.loop (robots : Fin n → Robot) (robot : Robot) : Nat → Bfs → Bfs
  | 0, b => b
  | fuel + 1, b =>
    match b.queue[b.head]? with
    | none => b
    | some (row, col) =>
      loop robots robot fuel
        (directions.foldl (Bfs.look robots robot row col) { b with head := b.head + 1 })

/-- The search from the robot's cell.  The queue has room for every cell of the
map, and no cell enters it twice. -/
def bfs (robots : Fin n → Robot) (robot : Robot) : Bfs :=
  Bfs.loop robots robot (mapHeight * mapWidth).toNat (Bfs.start robot)

/-- One turn of the scan for the nearest reached cell, which keeps the best cell
so far and its distance. -/
def nearer (parent : Int → Int → Int) (targetRow targetCol : Int) (best : (Int × Int) × Int)
    (p : Int × Int) : (Int × Int) × Int :=
  if parent p.1 p.2 = -1 then best
  else if getDistance p.1 p.2 targetRow targetCol < best.2 then
    (p, getDistance p.1 p.2 targetRow targetCol)
  else best

/-- The reached cell nearest to the target, the robot's own if none is nearer. -/
def nearestReached (parent : Int → Int → Int) (robot : Robot) (targetRow targetCol : Int) :
    Int × Int :=
  (cells.foldl (nearer parent targetRow targetCol)
    ((robot.row, robot.col), getDistance robot.row robot.col targetRow targetCol)).1

/-- The path from a reached cell back to the robot's, the robot's cell excluded. -/
def pathLoop (parent : Int → Int → Int) (start : Int) :
    Nat → Int → Int → List (Int × Int) → List (Int × Int)
  | 0, _, _, path => path
  | fuel + 1, row, col, path =>
    if cellNumber row col ≠ start then
      let prev := parent row col
      pathLoop parent start fuel (prev / mapWidth) (prev % mapWidth) (path ++ [(row, col)])
    else path

/-- The direction of the path's last entry, the cell next to the robot's. -/
def directionTo (robot : Robot) (path : List (Int × Int)) : Command :=
  match path.getLast? with
  | none => .wait
  | some (nextRow, nextCol) =>
    if nextRow < robot.row then .up
    else if nextRow > robot.row then .down
    else if nextCol < robot.col then .left
    else if nextCol > robot.col then .right
    else .wait

/-- The first step towards a reached cell. -/
def stepTowards (parent : Int → Int → Int) (robot : Robot) (target : Int × Int) : Command :=
  directionTo robot
    (pathLoop parent (cellNumber robot.row robot.col) (mapHeight * mapWidth).toNat
      target.1 target.2 [])

/-- `get_next_direction`. -/
def getNextDirection (robots : Fin n → Robot) (robot : Robot) (targetRow targetCol : Int) :
    Command :=
  let parent := (bfs robots robot).parent
  if parent targetRow targetCol = -1 then
    let best := nearestReached parent robot targetRow targetCol
    if best = (robot.row, robot.col) then .wait
    else stepTowards parent robot best
  else stepTowards parent robot (targetRow, targetCol)

/-! ## `get_escape_direction` -/

/-- How good a step to the cell is for a robot that has to make room: away from
the target, and rather to a shared place or an open cell. -/
def escapeScore (row col : Int) (nextDistance currentDistance : Int) : Int :=
  let cell := mapDrawDefault row col
  (nextDistance - currentDistance) * 100 +
    (if isSharedPlace row col then 100
     else if cell = chr 'S' then 20
     else if cell = chr ' ' then 10
     else 0)

/-- One turn of the loop over directions, which keeps the best direction so far
and its score. -/
def betterEscape (robots : Fin n → Robot) (robot : Robot) (targetRow targetCol : Int)
    (best : Command × Int) (d : Command) : Command × Int :=
  let currentDistance := getDistance robot.row robot.col targetRow targetCol
  let next := getNextPosition robot.row robot.col d
  if isBlockedCell robots robot next.1 next.2 then best
  else
    let nextDistance := getDistance next.1 next.2 targetRow targetCol
    if nextDistance < currentDistance then best
    else
      let score := escapeScore next.1 next.2 nextDistance currentDistance
      if score > best.2 then (d, score) else best

/-- `get_escape_direction`: the best-scoring open neighbour that is not nearer to
the target, `wait` if there is none. -/
def getEscapeDirection (robots : Fin n → Robot) (robot : Robot) (targetRow targetCol : Int) :
    Command :=
  (directions.foldl (betterEscape robots robot targetRow targetCol) (.wait, -1000000)).1

/-! ## The search is a breadth-first search

The arrays represent a `GraphSearch.Search` over the cells: the graph's edges
lead from a cell to its open neighbours. -/

open GraphSearch FirstBest

/-- The open neighbours of a cell, in the order of the loop over directions. -/
def openNeighbours (robots : Fin n → Robot) (robot : Robot) (p : Int × Int) : List (Int × Int) :=
  (directions.map (getNextPosition p.1 p.2)).filter fun q => !isBlockedCell robots robot q.1 q.2

/-- `b` is reachable from `a` in `k` steps over open cells. -/
abbrev OpenWalk (robots : Fin n → Robot) (robot : Robot) (a b : Int × Int) (k : Nat) : Prop :=
  Walk (openNeighbours robots robot) a b k

variable {robots : Fin n → Robot} {robot : Robot} {p q : Int × Int}

theorem mem_openNeighbours :
    q ∈ openNeighbours robots robot p ↔
      ∃ d ∈ directions, q = getNextPosition p.1 p.2 d ∧ isBlockedCell robots robot q.1 q.2 = false := by
  simp only [openNeighbours, mem_filter, mem_map, Bool.not_eq_true']
  constructor
  · rintro ⟨⟨d, hd, rfl⟩, hf⟩
    exact ⟨d, hd, rfl, hf⟩
  · rintro ⟨d, hd, rfl, hf⟩
    exact ⟨⟨d, hd, rfl⟩, hf⟩

theorem inMap_of_mem_openNeighbours (h : q ∈ openNeighbours robots robot p) :
    InMap q := by
  obtain ⟨d, -, -, hf⟩ := mem_openNeighbours.mp h
  exact (isBlockedCell_eq_false_iff.mp hf).1

/-- Open walks stay on the map. -/
theorem inMap_of_openWalk {k : Nat} (hp : InMap p)
    (h : OpenWalk robots robot p q k) : InMap q := by
  induction h with
  | nil v => exact hp
  | cons he _ ih => exact ih (inMap_of_mem_openNeighbours he)

theorem cellNumber_div (hp : InMap p) : cellNumber p.1 p.2 / mapWidth = p.1 := by
  simp only [InMap, cellNumber, mapWidth, mapHeight] at *
  omega

theorem cellNumber_mod (hp : InMap p) : cellNumber p.1 p.2 % mapWidth = p.2 := by
  simp only [InMap, cellNumber, mapWidth, mapHeight] at *
  omega

theorem cellNumber_ne (hp : InMap p) : cellNumber p.1 p.2 ≠ -1 := by
  simp only [InMap, cellNumber, mapWidth, mapHeight] at *
  omega

theorem cellNumber_injective (hp : InMap p) (hq : InMap q)
    (h : cellNumber p.1 p.2 = cellNumber q.1 q.2) : p = q := by
  refine Prod.ext ?_ ?_
  · rw [← cellNumber_div hp, ← cellNumber_div hq, h]
  · rw [← cellNumber_mod hp, ← cellNumber_mod hq, h]

/-- The entry of the array `parent` for a parent pointer. -/
def parentEntry : Option (Int × Int) → Int
  | none => -1
  | some p => cellNumber p.1 p.2

/-- **The arrays represent the search**: the parents are stored as cell numbers,
the queue is the search's, and `head` counts the expanded cells. -/
structure Represents (b : Bfs) (q : Search (Int × Int)) : Prop where
  parent : ∀ r c, b.parent r c = parentEntry (q.parent (r, c))
  queue : b.queue = q.queue
  head : b.head = q.done.length
  inMap : ∀ v u, q.parent v = some u → InMap u

variable {q : Search (Int × Int)} {b : Bfs}

theorem Represents.unreached (h : Represents b q) (p : Int × Int) :
    b.parent p.1 p.2 = -1 ↔ ¬(q.parent p).isSome := by
  rw [h.parent]
  cases hp : q.parent (p.1, p.2) with
  | none => simp [parentEntry]
  | some u => simpa [parentEntry, hp] using cellNumber_ne (h.inMap _ _ hp)

theorem represents_start (hin : InMap robot.pos) :
    Represents (Bfs.start robot) (Search.start robot.pos) where
  parent r c := by
    by_cases h : r = robot.row ∧ c = robot.col
    · simp [Bfs.start, setParent, Search.start, Robot.pos, parentEntry, h]
    · simp [Bfs.start, setParent, Search.start, Robot.pos, parentEntry, Function.update, h]
  queue := rfl
  head := rfl
  inMap v u h := by
    by_cases hv : v = robot.pos
    · obtain rfl : robot.pos = u := by simpa [Search.start, hv] using h
      exact hin
    · simp [Search.start, Function.update, hv] at h

/-- One turn of the inner loop sees one neighbour. -/
theorem Represents.look (h : Represents b q) (robots : Fin n → Robot) (robot : Robot) (hp : InMap p)
    (d : Command) :
    Represents (b.look robots robot p.1 p.2 d)
      (if isBlockedCell robots robot (getNextPosition p.1 p.2 d).1 (getNextPosition p.1 p.2 d).2
        then q else q.discover p (getNextPosition p.1 p.2 d)) := by
  have hun := h.unreached (getNextPosition p.1 p.2 d)
  unfold Bfs.look
  generalize getNextPosition p.1 p.2 d = v at hun ⊢
  by_cases hblocked : isBlockedCell robots robot v.1 v.2 = true
  · simpa [hblocked] using h
  by_cases hseen : (q.parent v).isSome
  · have hne : b.parent v.1 v.2 ≠ -1 := fun he => hun.mp he hseen
    simpa [hblocked, hne, Search.discover, hseen] using h
  have hnew : b.parent v.1 v.2 = -1 := hun.mpr hseen
  simp only [hblocked, hnew, Bool.false_eq_true, ne_eq, not_true_eq_false, or_self, ite_false,
    Search.discover, hseen]
  refine ⟨fun r c => ?_, by simp [h.queue, Search.queue], h.head, fun w u hw => ?_⟩
  · by_cases hv : r = v.1 ∧ c = v.2
    · simp [setParent, hv, parentEntry]
    · have hne : (r, c) ≠ v := fun he => hv ⟨congrArg Prod.fst he, congrArg Prod.snd he⟩
      simp only [setParent, hv, ite_false, Function.update_of_ne hne]
      exact h.parent r c
  · by_cases hv : w = v
    · obtain rfl : p = u := by simpa [hv] using hw
      exact hp
    · exact h.inMap w u (by simpa [Function.update_of_ne hv] using hw)

/-- The inner loop expands one cell. -/
theorem Represents.foldl_look (robots : Fin n → Robot) (robot : Robot) (hp : InMap p) :
    ∀ (l : List Command) {b : Bfs} {q : Search (Int × Int)}, Represents b q →
      Represents (l.foldl (Bfs.look robots robot p.1 p.2) b)
        (((l.map (getNextPosition p.1 p.2)).filter fun v => !isBlockedCell robots robot v.1 v.2).foldl
          (Search.discover p) q)
  | [], _, _, h => h
  | d :: l, b, q, h => by
    have hstep := h.look robots robot hp d
    have ih := foldl_look robots robot hp l hstep
    rw [foldl_cons, map_cons, filter_cons]
    by_cases hblocked : isBlockedCell robots robot (getNextPosition p.1 p.2 d).1
        (getNextPosition p.1 p.2 d).2 = true
    · simpa [hblocked] using ih
    · simpa [hblocked] using ih

/-- Everything the search discovers lies on the map. -/
theorem inMap_of_mem_queue
    (hb : Search.Between (openNeighbours robots robot) robot.pos q) (hin : InMap robot.pos) :
    ∀ v ∈ q.queue, InMap v := by
  intro v hv
  refine mem_cells.mp (hb.1.queue_subset (mem_cells.mpr hin) ?_ v hv)
  intro _ w hw
  exact mem_cells.mpr (inMap_of_mem_openNeighbours hw)

/-- The loop goes on with the cell that the search expands next. -/
theorem Represents.next (h : Represents b q) :
    b.queue[b.head]? = q.todo.head? := by
  rw [h.queue, h.head, Search.queue, getElem?_append_right (Nat.le_refl _), Nat.sub_self,
    head?_eq_getElem?]

theorem Represents.dequeue (h : Represents b q) {u : Int × Int} {rest : List (Int × Int)}
    (htodo : q.todo = u :: rest) :
    Represents { b with head := b.head + 1 } (q.dequeue u rest) := by
  refine ⟨h.parent, ?_, ?_, h.inMap⟩
  · simp [h.queue, Search.queue, Search.dequeue, htodo]
  · simp [h.head, Search.dequeue]

/-- The outer loop is the search. -/
theorem Represents.loop (robots : Fin n → Robot) (hin : InMap robot.pos) :
    ∀ (fuel : Nat) {b : Bfs} {q : Search (Int × Int)}, Represents b q →
      Search.Between (openNeighbours robots robot) robot.pos q →
      Represents (b.loop robots robot fuel) (q.run (openNeighbours robots robot) fuel)
  | 0, _, _, h, _ => h
  | fuel + 1, b, q, h, hb => by
    unfold Bfs.loop Search.run
    rw [h.next]
    cases htodo : q.todo with
    | nil => exact h
    | cons u rest =>
      have hu : InMap u := inMap_of_mem_queue hb hin u (by simp [Search.queue, htodo])
      exact Represents.loop robots hin fuel ((h.dequeue htodo).foldl_look robots robot hu directions)
        (hb.visit htodo).1

/-- The search `bfs` stands for, run to its end. -/
def searchFrom (robots : Fin n → Robot) (robot : Robot) : Search (Int × Int) :=
  (Search.start robot.pos).run (openNeighbours robots robot) cells.length

/-- **`bfs` is a finished breadth-first search** from the robot's cell. -/
theorem represents_bfs (robots : Fin n → Robot) (hin : InMap robot.pos) :
    Represents (bfs robots robot) (searchFrom robots robot) ∧
      Search.Finished (openNeighbours robots robot) robot.pos (searchFrom robots robot) := by
  refine ⟨?_, Search.finished_run (mem_cells.mpr hin) ?_⟩
  · exact (represents_start hin).loop robots hin _ (Search.between_start _)
  · intro _ v hv
    exact mem_cells.mpr (inMap_of_mem_openNeighbours hv)

/-- A cell is reached iff there is a walk of open cells to it. -/
theorem bfs_reached_iff (robots : Fin n → Robot) (hin : InMap robot.pos) {p : Int × Int} :
    (bfs robots robot).parent p.1 p.2 ≠ -1 ↔ ∃ k, OpenWalk robots robot robot.pos p k := by
  obtain ⟨hr, hf⟩ := represents_bfs robots hin
  rw [ne_eq, hr.unreached, hf.discovered_iff, Classical.not_not]

/-! ## The path back -/

/-- The path loop follows the parents. -/
theorem pathLoop_eq (h : Represents b q) {s : Int × Int} {adj : Int × Int → List (Int × Int)}
    {closed : List (Int × Int)} (hv : Search.Valid adj s closed q) (hs : InMap s) :
    ∀ (fuel : Nat) (v : Int × Int) (path : List (Int × Int)), InMap v → (q.parent v).isSome →
      pathLoop b.parent (cellNumber s.1 s.2) fuel v.1 v.2 path =
        path ++ Search.chase q.parent s fuel v
  | 0, _, path, _, _ => by simp [pathLoop, Search.chase]
  | fuel + 1, v, path, hin, hp => by
    unfold pathLoop Search.chase
    by_cases hvs : v = s
    · simp [hvs]
    · have hne : cellNumber v.1 v.2 ≠ cellNumber s.1 s.2 :=
        fun he => hvs (cellNumber_injective hin hs he)
      obtain ⟨u, hu⟩ := Option.isSome_iff_exists.mp hp
      have huin : InMap u := h.inMap v u hu
      have hprev : b.parent v.1 v.2 = cellNumber u.1 u.2 := by
        rw [h.parent, hu]
        rfl
      have hup : (q.parent u).isSome :=
        (hv.mem_iff u).mp (mem_append_left _ (hv.tree v u hvs hu).1)
      simp only [hne, ne_eq, not_false_eq_true, ite_true, hprev, cellNumber_div huin,
        cellNumber_mod huin, hvs, ite_false, hu, Option.getD_some]
      rw [pathLoop_eq h hv hs fuel u _ huin hup, append_assoc]
      rfl

/-- The direction to a neighbour is the direction it lies in. -/
theorem directionTo_eq {path : List (Int × Int)} {d : Command}
    (h : path.getLast? = some (getNextPosition robot.row robot.col d)) :
    directionTo robot path = d := by
  unfold directionTo
  rw [h]
  cases d with
  | wait => simp [getNextPosition]
  | up => exact if_pos (show robot.row - 1 < robot.row by omega)
  | down =>
    have h1 : ¬robot.row + 1 < robot.row := by omega
    have h2 : robot.row + 1 > robot.row := by omega
    simp only [getNextPosition, h1, h2, ite_false, ite_true]
  | left =>
    have h1 : robot.col - 1 < robot.col := by omega
    simp [getNextPosition, h1]
  | right =>
    have h1 : ¬robot.col + 1 < robot.col := by omega
    have h2 : robot.col + 1 > robot.col := by omega
    simp only [getNextPosition, h1, h2, Int.lt_irrefl, gt_iff_lt, ite_false, ite_true]

/-- **The step towards a reached cell** other than the robot's own: an open
neighbour from which the cell is one step nearer than at best from the robot's. -/
theorem stepTowards_spec (robots : Fin n → Robot) (hin : InMap robot.pos) {v : Int × Int} {k : Nat}
    (hw : OpenWalk robots robot robot.pos v k) (hv : v ≠ robot.pos) :
    let d := stepTowards (bfs robots robot).parent robot v
    let next := getNextPosition robot.row robot.col d
    d ≠ .wait ∧ isBlockedCell robots robot next.1 next.2 = false ∧
      ∃ m, OpenWalk robots robot next v m ∧ ∀ j, OpenWalk robots robot robot.pos v j → m + 1 ≤ j := by
  obtain ⟨hr, hf⟩ := represents_bfs robots hin
  have hp : ((searchFrom robots robot).parent v).isSome := (hf.discovered_iff v).mpr ⟨k, hw⟩
  have hcells : ∀ u, ∀ w ∈ openNeighbours robots robot u, w ∈ cells :=
    fun _ _ hw => mem_cells.mpr (inMap_of_mem_openNeighbours hw)
  have hvin : InMap v := mem_cells.mp
    (hf.valid.queue_subset (mem_cells.mpr hin) hcells v ((hf.valid.mem_iff v).mpr hp))
  -- the tree is no deeper than the map has cells, so the path loop has enough fuel
  have hdepth : (searchFrom robots robot).depth v ≤ (mapHeight * mapWidth).toNat :=
    Nat.le_of_lt (Nat.lt_of_lt_of_le (hf.valid.depth_lt_length hp)
      (hf.valid.queue_length_le (mem_cells.mpr hin) hcells))
  obtain ⟨-, hlast⟩ := hf.valid.chase_spec _ _ v rfl hp hdepth
  obtain ⟨c, hc, hadj, hcw⟩ := hlast hv
  obtain ⟨d, hd, rfl, hopen⟩ := mem_openNeighbours.mp hadj
  have hstep : stepTowards (bfs robots robot).parent robot v = d := by
    refine directionTo_eq ?_
    rw [show cellNumber robot.row robot.col = cellNumber robot.pos.1 robot.pos.2 from rfl,
      pathLoop_eq hr hf.valid hin _ v [] hvin hp, nil_append]
    exact hc
  simp only [hstep]
  refine ⟨?_, hopen, _, hcw, ?_⟩
  · rintro rfl
    simp [directions] at hd
  · intro j hj
    have hle := hf.depth_le_walk hj
    have hpos : (searchFrom robots robot).depth v ≠ 0 := by
      intro h0
      exact hv (hf.valid.walk_depth 0 h0 hp).eq_of_zero.symm
    omega

/-! ## What `get_next_direction` returns -/

/-- The cells are scanned in reading order. -/
theorem cells_sorted :
    cells.Pairwise fun p q => cellNumber p.1 p.2 < cellNumber q.1 q.2 := by
  decide +kernel

theorem keepsBest_nearer (parent : Int → Int → Int) (t : Int × Int) :
    KeepsBest (nearer parent t.1 t.2) (fun p => parent p.1 p.2 ≠ -1)
      (fun p => (p, getDistance p.1 p.2 t.1 t.2)) fun best => -best.2 := by
  intro best p
  unfold nearer
  split
  · rename_i hp
    exact .inr ⟨fun h => absurd hp h, rfl⟩
  · rename_i hp
    split
    · rename_i hd
      exact .inl ⟨⟨hp, Int.neg_lt_neg hd⟩, rfl⟩
    · rename_i hd
      exact .inr ⟨fun _ => Int.neg_le_neg (Int.not_lt.mp hd), rfl⟩

/-- **The nearest reached cell**: if the scan returns the robot's own cell, no
reached cell is nearer to the target; any other cell it returns is reached. -/
theorem nearestReached_spec (parent : Int → Int → Int) (robot : Robot) (t : Int × Int) :
    (nearestReached parent robot t.1 t.2 = robot.pos →
      ∀ p, InMap p → parent p.1 p.2 ≠ -1 →
        getDistance robot.row robot.col t.1 t.2 ≤ getDistance p.1 p.2 t.1 t.2) ∧
    (nearestReached parent robot t.1 t.2 ≠ robot.pos →
      parent (nearestReached parent robot t.1 t.2).1 (nearestReached parent robot t.1 t.2).2 ≠ -1) := by
  rcases (keepsBest_nearer parent t).foldl cells_sorted
      (robot.pos, getDistance robot.row robot.col t.1 t.2) with
    ⟨hres, hall⟩ | ⟨q, -, hres, hq, hlt, -⟩
  · refine ⟨fun _ p hp hpr => ?_, fun hne => absurd (congrArg Prod.fst hres) hne⟩
    exact Int.neg_le_neg_iff.mp (hall p (mem_cells.mpr hp) hpr)
  · have hkept : nearestReached parent robot t.1 t.2 = q := congrArg Prod.fst hres
    rw [hkept]
    refine ⟨fun he => ?_, fun _ => hq⟩
    subst he
    exact absurd hlt (Int.lt_irrefl _)

section
variable (robots) (hin : InMap robot.pos)
include robots hin

/-- **Towards a target that can be reached**, `getNextDirection` takes the first
step of a shortest path. -/
theorem getNextDirection_reachable {t : Int × Int} {k : Nat}
    (hw : OpenWalk robots robot robot.pos t k) (ht : t ≠ robot.pos) :
    let d := getNextDirection robots robot t.1 t.2
    let next := getNextPosition robot.row robot.col d
    d ≠ .wait ∧ isBlockedCell robots robot next.1 next.2 = false ∧
      ∃ m, OpenWalk robots robot next t m ∧ ∀ j, OpenWalk robots robot robot.pos t j → m + 1 ≤ j := by
  have hd : getNextDirection robots robot t.1 t.2 =
      stepTowards (bfs robots robot).parent robot t :=
    if_neg ((bfs_reached_iff robots hin).mpr ⟨k, hw⟩)
  simp only [hd]
  exact stepTowards_spec robots hin hw ht

/-- A robot on its target stays there. -/
theorem getNextDirection_own :
    getNextDirection robots robot robot.row robot.col = .wait := by
  have hd : getNextDirection robots robot robot.row robot.col =
      stepTowards (bfs robots robot).parent robot robot.pos :=
    if_neg ((bfs_reached_iff robots hin).mpr ⟨0, .nil _⟩)
  rw [hd]
  unfold stepTowards
  obtain ⟨m, hm⟩ : ∃ m, (mapHeight * mapWidth).toNat = m + 1 := ⟨48, rfl⟩
  rw [hm]
  simp [pathLoop, Robot.pos, directionTo]

/-- **`getNextDirection` takes the step to another reached cell**, the target or the one
nearest to it, or stays because no reached cell is nearer to the target than its own. -/
theorem getNextDirection_cases (t : Int × Int) :
    (∃ q k, getNextDirection robots robot t.1 t.2 = stepTowards (bfs robots robot).parent robot q ∧
      OpenWalk robots robot robot.pos q k ∧ q ≠ robot.pos) ∨
    getNextDirection robots robot t.1 t.2 = .wait ∧
      ∀ p k, OpenWalk robots robot robot.pos p k →
        getDistance robot.row robot.col t.1 t.2 ≤ getDistance p.1 p.2 t.1 t.2 := by
  obtain ⟨hown, hother⟩ := nearestReached_spec (bfs robots robot).parent robot t
  by_cases hreached : (bfs robots robot).parent t.1 t.2 = -1
  · unfold getNextDirection
    rw [if_pos hreached]
    by_cases hbest : nearestReached (bfs robots robot).parent robot t.1 t.2 = robot.pos
    · refine .inr ⟨if_pos hbest, fun p k hp => ?_⟩
      exact hown hbest p (inMap_of_openWalk hin hp) ((bfs_reached_iff robots hin).mpr ⟨k, hp⟩)
    · obtain ⟨k, hk⟩ := (bfs_reached_iff robots hin).mp (hother hbest)
      exact .inl ⟨_, k, if_neg hbest, hk, hbest⟩
  · by_cases ht : t = robot.pos
    · subst t
      exact .inr ⟨getNextDirection_own robots hin, fun p k hp => getDistance_self_le _ _ _ _⟩
    · obtain ⟨k, hk⟩ := (bfs_reached_iff robots hin).mp hreached
      exact .inl ⟨t, k, if_neg hreached, hk, ht⟩

/-- **Every move `getNextDirection` asks for leads to an open cell**, the fallback
towards the nearest reached cell included. -/
theorem getNextDirection_open {t : Int × Int} (hd : getNextDirection robots robot t.1 t.2 ≠ .wait) :
    isBlockedCell robots robot
      (getNextPosition robot.row robot.col (getNextDirection robots robot t.1 t.2)).1
      (getNextPosition robot.row robot.col (getNextDirection robots robot t.1 t.2)).2 = false := by
  rcases getNextDirection_cases robots hin t with ⟨q, k, he, hq, hne⟩ | ⟨hwait, -⟩
  · rw [he]
    exact (stepTowards_spec robots hin hq hne).2.1
  · exact absurd hwait hd

/-- **A robot that stays has no reached cell nearer to its target** than its
own. -/
theorem getNextDirection_wait {t : Int × Int} (hd : getNextDirection robots robot t.1 t.2 = .wait)
    {p : Int × Int} {k : Nat} (hp : OpenWalk robots robot robot.pos p k) :
    getDistance robot.row robot.col t.1 t.2 ≤ getDistance p.1 p.2 t.1 t.2 := by
  rcases getNextDirection_cases robots hin t with ⟨q, j, he, hq, hne⟩ | ⟨-, hfar⟩
  · exact absurd (he.symm.trans hd) (stepTowards_spec robots hin hq hne).1
  · exact hfar p k hp

end

/-! ## What `get_escape_direction` returns -/

/-- The loop over directions keeps `wait` with the initial score, or an open
direction that does not lead nearer to the target. -/
def GoodEscape (robots : Fin n → Robot) (robot : Robot) (t : Int × Int) (d : Command) : Prop :=
  d ≠ .wait ∧
  isBlockedCell robots robot (getNextPosition robot.row robot.col d).1
    (getNextPosition robot.row robot.col d).2 = false ∧
  getDistance robot.row robot.col t.1 t.2 ≤
    getDistance (getNextPosition robot.row robot.col d).1
      (getNextPosition robot.row robot.col d).2 t.1 t.2

/-- A direction that does not lead nearer to the target has a score above the
initial one. -/
theorem escapeScore_pos {row col nextDistance currentDistance : Int}
    (h : currentDistance ≤ nextDistance) :
    0 ≤ escapeScore row col nextDistance currentDistance := by
  simp only [escapeScore]
  split
  · omega
  · split
    · omega
    · split <;> omega

theorem keepsBest_betterEscape (robots : Fin n → Robot) (robot : Robot) (t : Int × Int) :
    KeepsBest (betterEscape robots robot t.1 t.2)
      (fun d =>
        let next := getNextPosition robot.row robot.col d
        isBlockedCell robots robot next.1 next.2 = false ∧
          getDistance robot.row robot.col t.1 t.2 ≤ getDistance next.1 next.2 t.1 t.2)
      (fun d =>
        let next := getNextPosition robot.row robot.col d
        (d, escapeScore next.1 next.2 (getDistance next.1 next.2 t.1 t.2)
          (getDistance robot.row robot.col t.1 t.2))) Prod.snd := by
  intro best d
  unfold betterEscape
  dsimp only
  split
  · rename_i hb
    exact .inr ⟨fun h => absurd (h.1.symm.trans hb) Bool.false_ne_true, rfl⟩
  · rename_i hb
    split
    · rename_i hn
      exact .inr ⟨fun h => absurd h.2 (Int.not_le.mpr hn), rfl⟩
    · rename_i hn
      split
      · rename_i hs
        exact .inl ⟨⟨⟨by simpa using hb, Int.not_lt.mp hn⟩, hs⟩, rfl⟩
      · rename_i hs
        exact .inr ⟨fun _ => Int.not_lt.mp hs, rfl⟩

/-- **`getEscapeDirection` finds a way to make room if there is one**: it returns
`wait` only if every open neighbour is nearer to the target, and else the
direction of an open neighbour. -/
theorem getEscapeDirection_spec (robots : Fin n → Robot) (robot : Robot) (t : Int × Int) :
    (getEscapeDirection robots robot t.1 t.2 = .wait ∧
      ∀ d ∈ directions, ¬GoodEscape robots robot t d) ∨
    GoodEscape robots robot t (getEscapeDirection robots robot t.1 t.2) := by
  rcases (keepsBest_betterEscape robots robot t).foldl (pairwise_of_forall fun _ _ => trivial)
      (.wait, -1000000) with ⟨hres, hall⟩ | ⟨d, hd, hres, hgood, -⟩
  · refine .inl ⟨congrArg Prod.fst hres, fun d hd hgood => ?_⟩
    have hscore : _ ≤ (-1000000 : Int) := hall d hd hgood.2
    have hpos := Int.le_trans (escapeScore_pos hgood.2.2) hscore
    exact absurd hpos (by decide)
  · have hkept : getEscapeDirection robots robot t.1 t.2 = d := congrArg Prod.fst hres
    rw [hkept]
    exact .inr ⟨(by decide : ∀ d ∈ directions, d ≠ Command.wait) d hd, hgood⟩

end Pintos.Warehouse
