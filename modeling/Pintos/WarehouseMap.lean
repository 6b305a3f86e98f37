import Mathlib.Data.List.FinRange

/-!
# The warehouse: its map, its robots and what blocks a cell

`aw_manager.c` draws the warehouse as a 7 × 7 array of characters, `robot.h`
gives the record of a robot, and `automated_warehouse.c` asks three kinds of
question about them: where something is (`getItemPosition`,
`getDestinationPosition`, `getRobotTarget`), how far apart two cells are
(`getDistance`), and whether a robot may enter a cell (`isBlockedCell`).

C's `char` and `int` values are both integers here: a character constant has
type `int` in C, and `chr` is its value.  The global array `robots` is a function
on `Fin n`, where `n` is `number_of_robots`.
-/

namespace Pintos.Warehouse

/-- The value of a C character constant. -/
def chr (c : Char) : Int := c.toNat

/-- Conversion of an `int` to C's (signed, 8-bit) `char`. -/
def toChar (x : Int) : Int := (x + 128) % 256 - 128

/-! ## The map -/

def mapHeight : Int := 7
def mapWidth : Int := 7

def rowA : Int := 1
def colA : Int := 0
def rowB : Int := 3
def colB : Int := 0
def rowC : Int := 5
def colC : Int := 0
def rowS : Int := 5
def colS : Int := 5
def rowW : Int := 6
def colW : Int := 5

/-- The rows of `map_draw_default`. -/
def mapRows : List (List Char) :=
  [['X', 'X', 'X', 'X', 'X', 'X', 'X'],
   ['A', ' ', ' ', '7', ' ', ' ', 'X'],
   ['X', ' ', '1', 'X', '4', ' ', 'X'],
   ['B', ' ', '2', 'X', '5', ' ', 'X'],
   ['X', ' ', '3', 'X', '6', ' ', 'X'],
   ['C', ' ', ' ', ' ', ' ', 'S', 'X'],
   ['X', 'X', 'X', 'X', 'X', 'W', 'X']]

/-- `map_draw_default[row][col]`. -/
def mapDrawDefault (row col : Int) : Int :=
  chr ((mapRows.getD row.toNat []).getD col.toNat 'X')

/-- The cells in the order of the nested loops over rows and columns. -/
def cells : List (Int × Int) :=
  (List.range 7).flatMap fun (r : Nat) => (List.range 7).map fun (c : Nat) => ((r : Int), (c : Int))

/-- The unloading places `A`, `B`, `C` and the waiting place `W` hold any number
of robots. -/
def isSharedPlace (row col : Int) : Bool :=
  let cell := mapDrawDefault row col
  cell = chr 'A' ∨ cell = chr 'B' ∨ cell = chr 'C' ∨ cell = chr 'W'

/-- The first cell, in reading order, that shows `item`; `S` if there is none. -/
def getItemPosition (item : Int) : Int × Int :=
  (cells.find? fun p => mapDrawDefault p.1 p.2 = item).getD (rowS, colS)

def getDestinationPosition (destination : Int) : Int × Int :=
  if destination = chr 'A' then (rowA, colA)
  else if destination = chr 'B' then (rowB, colB)
  else if destination = chr 'C' then (rowC, colC)
  else (rowW, colW)

/-- The distance between two cells, ignoring the walls. -/
def getDistance (row col targetRow targetCol : Int) : Int :=
  let rowDistance := row - targetRow
  let colDistance := col - targetCol
  (if rowDistance < 0 then -rowDistance else rowDistance) +
    (if colDistance < 0 then -colDistance else colDistance)

/-! ## Commands -/

/-- What the controller can tell a robot: `0` to `4` in the source. -/
inductive Command where
  | wait
  | up
  | down
  | left
  | right
  deriving DecidableEq, Repr

/-- The four moves, in the order of the loops over directions. -/
def directions : List Command := [.up, .down, .left, .right]

/-- The cell a command leads to. -/
def getNextPosition (row col : Int) : Command → Int × Int
  | .wait => (row, col)
  | .up => (row - 1, col)
  | .down => (row + 1, col)
  | .left => (row, col - 1)
  | .right => (row, col + 1)

/-! ## Robots -/

/-- `struct robot`, without the name it is printed under. -/
structure Robot where
  /-- The number of the item to fetch. -/
  requiredItem : Int
  /-- The character of the unloading place. -/
  destination : Int
  row : Int
  col : Int
  requiredPayload : Int
  currentPayload : Int
  taskCompleted : Bool
  deriving DecidableEq, Repr

/-- The cell a robot stands on. -/
def Robot.pos (r : Robot) : Int × Int := (r.row, r.col)

/-- `setRobot`: the item number is stored in a `char`. -/
def setRobot (item destination row col requiredPayload currentPayload : Int)
    (taskCompleted : Bool) : Robot where
  requiredItem := toChar item
  destination := destination
  row := row
  col := col
  requiredPayload := requiredPayload
  currentPayload := currentPayload
  taskCompleted := taskCompleted

/-- The robot `parse_robot_tasks` sets up for a task: on `W`, empty, to carry
`item` units of payload. -/
def startRobot (item destination : Int) : Robot :=
  setRobot item destination rowW colW item 0 false

/-- Where the robot's item lies. -/
def Robot.itemPosition (r : Robot) : Int × Int :=
  getItemPosition (toChar (r.requiredItem + chr '0'))

/-- Where the robot is to unload. -/
def Robot.destinationPosition (r : Robot) : Int × Int :=
  getDestinationPosition r.destination

/-- An empty robot heads for its item, a loaded one for its unloading place. -/
def getRobotTarget (r : Robot) : Int × Int :=
  if r.currentPayload = 0 then r.itemPosition else r.destinationPosition

/-- May `robot` not enter the cell?  Walls and the outside are blocked; a cell
with a robot on it is blocked unless it is a shared place; an item's cell is open
only to an empty robot that wants this item. -/
def isBlockedCell {n : Nat} (robots : Fin n → Robot) (robot : Robot) (row col : Int) : Bool :=
  if row < 0 ∨ row ≥ mapHeight ∨ col < 0 ∨ col ≥ mapWidth then true
  else if mapDrawDefault row col = chr 'X' then true
  -- the scan stops at the first robot found there; the answer depends on the cell only
  else if (List.finRange n).any fun i => (robots i).row = row ∧ (robots i).col = col then
    !isSharedPlace row col
  else
    let cell := mapDrawDefault row col
    if chr '1' ≤ cell ∧ cell ≤ chr '9' then
      !(robot.currentPayload = 0 ∧ cell = robot.requiredItem + chr '0' : Bool)
    else false

/-! ## Facts about the map -/

/-- The cell lies on the map. -/
def InMap (p : Int × Int) : Prop :=
  0 ≤ p.1 ∧ p.1 < mapHeight ∧ 0 ≤ p.2 ∧ p.2 < mapWidth

instance (p : Int × Int) : Decidable (InMap p) :=
  inferInstanceAs (Decidable (_ ∧ _ ∧ _ ∧ _))

/-- The cell is a wall. -/
def IsWall (p : Int × Int) : Prop := mapDrawDefault p.1 p.2 = chr 'X'

instance (p : Int × Int) : Decidable (IsWall p) := inferInstanceAs (Decidable (_ = _))

/-- The cell shows a digit: an item lies there. -/
def IsItemCell (p : Int × Int) : Prop :=
  chr '1' ≤ mapDrawDefault p.1 p.2 ∧ mapDrawDefault p.1 p.2 ≤ chr '9'

instance (p : Int × Int) : Decidable (IsItemCell p) := inferInstanceAs (Decidable (_ ∧ _))

/-- The cell is one of the shared places. -/
def IsShared (p : Int × Int) : Prop := isSharedPlace p.1 p.2 = true

instance (p : Int × Int) : Decidable (IsShared p) := inferInstanceAs (Decidable (_ = _))

variable {p : Int × Int}

theorem mem_cells : p ∈ cells ↔ InMap p := by
  obtain ⟨r, c⟩ := p
  simp only [cells, List.mem_flatMap, List.mem_map, List.mem_range, Prod.mk.injEq, InMap,
    mapHeight, mapWidth]
  constructor
  · rintro ⟨a, ha, b, hb, rfl, rfl⟩
    omega
  · intro h
    exact ⟨r.toNat, by omega, c.toNat, by omega, by omega, by omega⟩

/-- A fact about the cells of the map may be checked cell by cell. -/
theorem forall_inMap {P : Int × Int → Prop} (h : ∀ p ∈ cells, P p) (hp : InMap p) : P p :=
  h p (mem_cells.mpr hp)

/-- A shared place is neither a wall nor an item's cell. -/
theorem not_isItemCell_of_isShared (h : IsShared p) : ¬IsItemCell p := by
  simp only [IsShared, isSharedPlace, decide_eq_true_eq] at h
  rintro ⟨h1, h2⟩
  rcases h with h | h | h | h <;> rw [h] at h1 h2 <;> revert h1 h2 <;> decide

/-- Nothing is nearer to a cell than the cell itself. -/
theorem getDistance_self_le (row col r c : Int) :
    getDistance row col row col ≤ getDistance r c row col := by
  simp only [getDistance]
  omega

/-- The item a robot may fetch from the cell: it is empty and the digit is its
own. -/
def Robot.MayFetch (r : Robot) (p : Int × Int) : Prop :=
  r.currentPayload = 0 ∧ mapDrawDefault p.1 p.2 = r.requiredItem + chr '0'

/-- **What an open cell is**: it lies on the map, is no wall, and either is a
shared place or has no robot on it and, if an item lies there, is the cell the
robot fetches its item from. -/
theorem isBlockedCell_eq_false_iff {n : Nat} {robots : Fin n → Robot} {robot : Robot} :
    isBlockedCell robots robot p.1 p.2 = false ↔
      InMap p ∧ ¬IsWall p ∧
        (IsShared p ∨ ((∀ i, (robots i).pos ≠ p) ∧ (IsItemCell p → robot.MayFetch p))) := by
  have hany : ((List.finRange n).any fun i => (robots i).row = p.1 ∧ (robots i).col = p.2) = true ↔
      ¬∀ i, (robots i).pos ≠ p := by
    simp [Robot.pos, Prod.ext_iff]
  unfold isBlockedCell
  split
  · rename_i hout
    simp only [Bool.true_eq_false, false_iff]
    rintro ⟨hin, -, -⟩
    unfold InMap at hin
    omega
  · rename_i hout
    have hin : InMap p := by
      unfold InMap
      omega
    split
    · rename_i hw
      simp only [Bool.true_eq_false, false_iff]
      exact fun h => h.2.1 hw
    · rename_i hw
      split
      · rename_i hsome
        rw [hany] at hsome
        constructor
        · intro hs
          exact ⟨hin, hw, Or.inl (by simpa [IsShared] using hs)⟩
        · rintro ⟨-, -, hs | ⟨hs, -⟩⟩
          · simpa [IsShared] using hs
          · exact absurd hs hsome
      · rename_i hnone
        rw [hany, not_not] at hnone
        dsimp only
        split
        · rename_i hitem
          constructor
          · intro hf
            exact ⟨hin, hw, Or.inr ⟨hnone, fun _ => by simpa [Robot.MayFetch] using hf⟩⟩
          · rintro ⟨-, -, hs | ⟨-, hf⟩⟩
            · exact absurd hitem (not_isItemCell_of_isShared hs)
            · simpa [Robot.MayFetch] using hf hitem
        · rename_i hitem
          simp only [true_iff]
          exact ⟨hin, hw, Or.inr ⟨hnone, fun h => absurd h hitem⟩⟩

end Pintos.Warehouse
