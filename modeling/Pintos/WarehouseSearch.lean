import Pintos.Basic
import Pintos.WarehousePath

/-!
# The arrays of the path search

`get_next_direction` keeps its search in arrays on the stack: `parent` has an entry for every
cell of the map, and `queue_r`, `queue_c`, `path_r` and `path_c` have one for every cell, too.
Here the search is written once more, with a failure, `none`, for every access outside of them
and for a loop that does not end.  As in `Bfs`, the lists are the written parts of the arrays.

**The search stays in its arrays** (`search_stays_in_arrays`): a cell is marked in `parent`
before it joins the queue, so it joins once; `is_blocked_cell` is asked before `parent` is
read; and the way back along `parent` gets nearer to the robot's cell with every step.
-/

namespace Pintos.Warehouse
open GraphSearch List

/-- `MAP_HEIGHT * MAP_WIDTH`. -/
def cellCnt : Nat := (mapHeight * mapWidth).toNat

section Code
variable {n : Nat} (robots : Fin n → Robot) (robot : Robot)

/-- One turn of the inner loop, for the cell `p`. -/
def Bfs.lookChecked (p : Int × Int) (b : Bfs) (d : Command) : Option Bfs :=
  let next := getNextPosition p.1 p.2 d
  if isBlockedCell robots robot next.1 next.2 then some b
  else do
    assert (InMap next)
    if b.parent next.1 next.2 ≠ -1 then some b
    else do
      assert (b.queue.length < cellCnt)
      some
        { b with
          parent := setParent b.parent next.1 next.2 (cellNumber p.1 p.2)
          queue := b.queue ++ [next] }

/-- One turn of the outer loop, with the first `turns` turns of the inner one. -/
def Bfs.turnChecked (turns : Nat) (b : Bfs) : Option Bfs :=
  match b.queue[b.head]? with
  | none => some b
  | some p =>
    (directions.take turns).foldlM (Bfs.lookChecked robots robot p) { b with head := b.head + 1 }

/-- The outer loop, at most `rounds` turns of it. -/
def Bfs.loopChecked : Nat → Bfs → Option Bfs
  | 0, b => some b
  | rounds + 1, b => do loopChecked rounds (← b.turnChecked robots robot directions.length)

/-- The search, as far as `rounds` turns of the outer loop. -/
def searchChecked (rounds : Nat) : Option Bfs := do
  assert (InMap robot.pos)
  (Bfs.start robot).loopChecked robots robot rounds

/-- The way back from a cell, with what is written of `path_r` and `path_c` before. -/
def pathChecked (parent : Int → Int → Int) (start : Int) :
    Nat → Int × Int → List (Int × Int) → Option (List (Int × Int))
  | 0, p, path => if cellNumber p.1 p.2 ≠ start then none else some path
  | rounds + 1, p, path =>
    if cellNumber p.1 p.2 ≠ start then do
      assert (InMap p)
      assert (path.length < cellCnt)
      let prev := parent p.1 p.2
      pathChecked parent start rounds (prev / mapWidth, prev % mapWidth) (path ++ [p])
    else some path

/-- `get_next_direction`.  The scan for the nearest cell goes over the cells of the map. -/
def getNextDirectionChecked (target : Int × Int) : Option Command := do
  let b ← searchChecked robots robot cellCnt
  assert (b.head = b.queue.length)
  assert (InMap target)
  let start := cellNumber robot.row robot.col
  if b.parent target.1 target.2 = -1 then
    let best := nearestReached b.parent robot target.1 target.2
    if best = (robot.row, robot.col) then some .wait
    else do some (directionTo robot (← pathChecked b.parent start cellCnt best []))
  else do some (directionTo robot (← pathChecked b.parent start cellCnt target []))

end Code

section Search
variable {n : Nat} {robots : Fin n → Robot} {robot : Robot} {b : Bfs} {q : Search (Int × Int)}
  {closed : List (Int × Int)}

/-! ## The queue -/

/-- **There is room in the queue**: no cell is in it twice, and all are cells of the map. -/
theorem Represents.bounds (h : Represents b q)
    (hv : Search.Valid (openNeighbours robots robot) robot.pos closed q) (hin : InMap robot.pos) :
    b.queue.Nodup ∧ b.head ≤ b.queue.length ∧ b.queue.length ≤ cellCnt := by
  rw [h.queue, h.head]
  refine ⟨hv.nodup, by simp [Search.queue], ?_⟩
  exact hv.queue_length_le (mem_cells.mpr hin) fun _ w hw =>
    mem_cells.mpr (inMap_of_mem_openNeighbours hw)

theorem Bfs.length_look (p : Int × Int) (b : Bfs) (d : Command) :
    b.queue.length ≤ (b.look robots robot p.1 p.2 d).queue.length := by
  unfold Bfs.look
  dsimp only
  split
  · exact Nat.le_refl _
  · rw [length_append]
    exact Nat.le_add_right _ _

/-- A turn of the inner loop stays in the arrays if the queue has room. -/
theorem Bfs.lookChecked_eq (p : Int × Int) (b : Bfs) (d : Command)
    (hroom : (b.look robots robot p.1 p.2 d).queue.length ≤ cellCnt) :
    b.lookChecked robots robot p d = some (b.look robots robot p.1 p.2 d) := by
  unfold Bfs.look at hroom ⊢
  unfold Bfs.lookChecked
  generalize getNextPosition p.1 p.2 d = v at hroom ⊢
  by_cases hblocked : isBlockedCell robots robot v.1 v.2 = true
  · rw [if_pos hblocked, if_pos (.inl hblocked)]
  have hv : InMap v := (isBlockedCell_eq_false_iff.mp (Bool.eq_false_of_not_eq_true hblocked)).1
  rw [if_neg hblocked, assert_of hv, some_bind]
  by_cases hseen : b.parent v.1 v.2 ≠ -1
  · rw [if_pos hseen, if_pos (.inr hseen)]
  have hnew : ¬(isBlockedCell robots robot v.1 v.2 = true ∨ b.parent v.1 v.2 ≠ -1) :=
    not_or.mpr ⟨hblocked, hseen⟩
  rw [if_neg hnew, length_append, length_singleton] at hroom
  rw [if_neg hseen, if_neg hnew, assert_of (Nat.lt_of_succ_le hroom), some_bind]

theorem Bfs.foldlM_lookChecked (p : Int × Int) (l : List Command) (b : Bfs)
    (hroom : (l.foldl (Bfs.look robots robot p.1 p.2) b).queue.length ≤ cellCnt) :
    l.foldlM (Bfs.lookChecked robots robot p) b
      = some (l.foldl (Bfs.look robots robot p.1 p.2) b) := by
  have hgrows : ∀ (l : List Command) (b : Bfs),
      b.queue.length ≤ (l.foldl (Bfs.look robots robot p.1 p.2) b).queue.length := by
    intro l
    induction l with
    | nil => exact fun b => Nat.le_refl _
    | cons d l ih => exact fun b => Nat.le_trans (b.length_look p d) (ih _)
  induction l generalizing b with
  | nil => rfl
  | cons d l ih =>
    rw [foldlM_cons, b.lookChecked_eq p d (Nat.le_trans (hgrows l _) hroom), some_bind, foldl_cons]
    exact ih _ hroom

/-- **A turn of the outer loop**, or the beginning of one, stays in the arrays. -/
theorem Represents.turnChecked (h : Represents b q)
    (hb : Search.Between (openNeighbours robots robot) robot.pos q) (hin : InMap robot.pos)
    (turns : Nat) :
    ∃ b' q', b.turnChecked robots robot turns = some b' ∧ Represents b' q' ∧
      Search.Valid (openNeighbours robots robot) robot.pos q.done q' ∧
      (turns = directions.length → b' = b.loop robots robot 1 ∧
        q' = q.run (openNeighbours robots robot) 1) := by
  unfold Bfs.turnChecked Bfs.loop Search.run
  rw [h.next]
  cases htodo : q.todo with
  | nil => exact ⟨b, q, rfl, h, hb.1, fun _ => ⟨rfl, rfl⟩⟩
  | cons u rest =>
    have hu : InMap u := inMap_of_mem_queue hb hin u (by simp [Search.queue, htodo])
    have hr := (h.dequeue htodo).foldl_look robots robot hu (directions.take turns)
    have hv := (hb.expand htodo (l := ((directions.take turns).map (getNextPosition u.1 u.2)).filter
      fun v => !isBlockedCell robots robot v.1 v.2) fun v hv => by
        obtain ⟨hmem, hopen⟩ := mem_filter.mp hv
        obtain ⟨d, hd, rfl⟩ := mem_map.mp hmem
        exact mem_filter.mpr ⟨mem_map_of_mem (mem_of_mem_take hd), hopen⟩).1
    refine ⟨_, _, Bfs.foldlM_lookChecked u _ _ (hr.bounds hv hin).2.2, hr, hv, ?_⟩
    rintro rfl
    exact ⟨rfl, rfl⟩

theorem Bfs.loop_one (rounds : Nat) (b : Bfs) :
    (b.loop robots robot 1).loop robots robot rounds = b.loop robots robot (rounds + 1) := by
  cases hget : b.queue[b.head]? with
  | none => cases rounds <;> simp [Bfs.loop, hget]
  | some p => simp [Bfs.loop, hget]

/-- **The outer loop stays in the arrays.** -/
theorem Represents.loopChecked (hin : InMap robot.pos) (rounds : Nat) (h : Represents b q)
    (hb : Search.Between (openNeighbours robots robot) robot.pos q) :
    b.loopChecked robots robot rounds = some (b.loop robots robot rounds) := by
  induction rounds generalizing b q with
  | zero => rfl
  | succ rounds ih =>
    obtain ⟨b', q', hcode, h', -, hnext⟩ := h.turnChecked hb hin directions.length
    obtain ⟨rfl, rfl⟩ := hnext rfl
    rw [Bfs.loopChecked, hcode, some_bind, ih h' (hb.run 1), Bfs.loop_one]

theorem searchChecked_eq (robots : Fin n → Robot) (hin : InMap robot.pos) (rounds : Nat) :
    searchChecked robots robot rounds = some ((Bfs.start robot).loop robots robot rounds) := by
  rw [searchChecked, assert_of hin, some_bind]
  exact (represents_start hin).loopChecked hin rounds (Search.between_start _)

/-! ## The way back -/

/-- **The way back ends** at the robot's cell, and there is room for the path. -/
theorem Represents.pathChecked (h : Represents b q)
    (hv : Search.Valid (openNeighbours robots robot) robot.pos closed q)
    {rounds : Nat} {v : Int × Int} {path : List (Int × Int)} (hvin : InMap v)
    (hp : (q.parent v).isSome) (hrounds : q.depth v ≤ rounds)
    (hroom : path.length + q.depth v ≤ cellCnt) :
    pathChecked b.parent (cellNumber robot.row robot.col) rounds v path
      = some (pathLoop b.parent (cellNumber robot.row robot.col) rounds v.1 v.2 path) := by
  induction rounds generalizing v path with
  | zero =>
    obtain rfl := (hv.walk_depth 0 (Nat.le_zero.mp hrounds) hp).eq_of_zero
    exact if_neg (not_not.mpr rfl)
  | succ rounds ih =>
    rw [Warehouse.pathChecked, pathLoop]
    by_cases hvs : cellNumber v.1 v.2 ≠ cellNumber robot.row robot.col
    · obtain ⟨u, hu⟩ := Option.isSome_iff_exists.mp hp
      obtain ⟨hud, -, hdepth⟩ := hv.tree v u (fun heq => hvs (by rw [heq]; rfl)) hu
      have huin : InMap u := h.inMap v u hu
      have hprev : b.parent v.1 v.2 = cellNumber u.1 u.2 := by
        rw [h.parent, hu]
        rfl
      have hfits : path.length < cellCnt := by omega
      simp only [if_pos hvs, assert_of hvin, assert_of hfits, some_bind, hprev, cellNumber_div huin,
        cellNumber_mod huin]
      refine ih (v := u) huin ((hv.mem_iff u).mp (mem_append_left _ hud)) (by omega) ?_
      rw [length_append, length_singleton]
      omega
    · rw [if_neg hvs, if_neg hvs]

/-- **From every cell that is reached** the way back is a path without a cell twice. -/
theorem path_back (robots : Fin n → Robot) (hin : InMap robot.pos) {p : Int × Int}
    (hreached : (bfs robots robot).parent p.1 p.2 ≠ -1) :
    ∃ path, pathChecked (bfs robots robot).parent (cellNumber robot.row robot.col) cellCnt p []
        = some path ∧ directionTo robot path = stepTowards (bfs robots robot).parent robot p ∧
      path.length ≤ cellCnt - 1 ∧ (path ++ [robot.pos]).Nodup := by
  obtain ⟨hr, hf⟩ := represents_bfs robots hin
  have hsome := not_not.mp (mt (hr.unreached p).mpr hreached)
  have hcells : ∀ u, ∀ w ∈ openNeighbours robots robot u, w ∈ cells := fun _ _ hw =>
    mem_cells.mpr (inMap_of_mem_openNeighbours hw)
  have hp : InMap p := mem_cells.mp
    (hf.valid.queue_subset (mem_cells.mpr hin) hcells p ((hf.valid.mem_iff p).mpr hsome))
  have hdepth : (searchFrom robots robot).depth p < cellCnt :=
    Nat.lt_of_lt_of_le (hf.valid.depth_lt_length hsome)
      (hf.valid.queue_length_le (mem_cells.mpr hin) hcells)
  refine ⟨_, hr.pathChecked hf.valid hp hsome (Nat.le_of_lt hdepth) ?_, rfl, ?_⟩
  · rw [length_nil, Nat.zero_add]
    exact Nat.le_of_lt hdepth
  have hpath := pathLoop_eq hr hf.valid hin cellCnt p [] hp hsome
  rw [nil_append] at hpath
  obtain ⟨hnodup, hmem⟩ := hf.valid.chase_nodup cellCnt p hsome
  have hlength := (hf.valid.chase_spec _ cellCnt p rfl hsome (Nat.le_of_lt hdepth)).1
  rw [← hpath] at hnodup hmem hlength
  refine ⟨hlength.le.trans (Nat.le_sub_one_of_lt hdepth),
    nodup_append.mpr ⟨hnodup, nodup_singleton _, ?_⟩⟩
  intro a ha c hc heq
  exact (hmem a ha).2.1 (heq.trans (mem_singleton.mp hc))

/-- **The search stays in its arrays, and its loops end.**  For all robots, and a robot and a
target on the map: at every turn of the two loops of the search no cell is in the queue twice,
and `head <= tail <= MAP_HEIGHT * MAP_WIDTH`; the search ends; from every cell that is reached the
way back along `parent` comes to the robot's cell after at most `MAP_HEIGHT * MAP_WIDTH - 1`
steps, without a cell twice; and no access of `get_next_direction` is outside of the arrays. -/
theorem search_stays_in_arrays (robots : Fin n → Robot) {robot : Robot} (hin : InMap robot.pos)
    {target : Int × Int} (htarget : InMap target) :
    (∀ rounds turns, ∃ b, (do (← searchChecked robots robot rounds).turnChecked robots robot turns)
      = some b ∧ b.queue.Nodup ∧ b.head ≤ b.queue.length ∧ b.queue.length ≤ cellCnt) ∧
    (∃ b, searchChecked robots robot cellCnt = some b ∧ b.head = b.queue.length ∧
      ∀ p : Int × Int, b.parent p.1 p.2 ≠ -1 → ∃ path,
        pathChecked b.parent (cellNumber robot.row robot.col) cellCnt p [] = some path ∧
        path.length ≤ cellCnt - 1 ∧ (path ++ [robot.pos]).Nodup) ∧
    getNextDirectionChecked robots robot target
      = some (getNextDirection robots robot target.1 target.2) := by
  have hcode : searchChecked robots robot cellCnt = some (bfs robots robot) :=
    searchChecked_eq robots hin cellCnt
  have hend : (bfs robots robot).head = (bfs robots robot).queue.length := by
    obtain ⟨hr, hf⟩ := represents_bfs robots hin
    rw [hr.queue, hr.head, Search.queue, hf.todo, append_nil]
  refine ⟨fun rounds turns => ?_, ⟨_, hcode, hend, fun p hreached => ?_⟩, ?_⟩
  · have hstart : Search.Between (openNeighbours robots robot) robot.pos (Search.start robot.pos) :=
      Search.between_start _
    obtain ⟨b, q, hturn, hr, hv, -⟩ := ((represents_start hin).loop robots hin rounds
      hstart).turnChecked (hstart.run rounds) hin turns
    refine ⟨b, ?_, hr.bounds hv hin⟩
    rw [searchChecked_eq robots hin, some_bind, hturn]
  · obtain ⟨path, hpath, -, hsimple⟩ := path_back robots hin hreached
    exact ⟨path, hpath, hsimple⟩
  · have hstep : ∀ p : Int × Int, (bfs robots robot).parent p.1 p.2 ≠ -1 →
        (do some (directionTo robot (← pathChecked (bfs robots robot).parent
          (cellNumber robot.row robot.col) cellCnt p [])))
          = some (stepTowards (bfs robots robot).parent robot p) := by
      intro p hreached
      obtain ⟨path, hpath, hdirection, -⟩ := path_back robots hin hreached
      rw [hpath, some_bind, hdirection]
    rw [getNextDirectionChecked, hcode, some_bind, assert_of hend, some_bind, assert_of htarget,
      some_bind, getNextDirection]
    dsimp only
    split
    · split
      · rfl
      · next hbest =>
        exact hstep _ ((nearestReached_spec (bfs robots robot).parent robot target).2 hbest)
    · next hreached => exact hstep target hreached

end Search

/-- Two robots on `W`, the first of which is sent to `A`. -/
theorem search_stays_in_arrays_two :
    let robots : Fin 2 → Robot := fun _ => startRobot 1 (chr 'A')
    InMap (startRobot 1 (chr 'A')).pos ∧ InMap (rowA, colA) ∧
      (∃ b, searchChecked robots (startRobot 1 (chr 'A')) cellCnt = some b ∧
        b.head = b.queue.length) ∧
      getNextDirectionChecked robots (startRobot 1 (chr 'A')) (rowA, colA) = some .up := by
  intro robots
  obtain ⟨-, ⟨b, hcode, hend, -⟩, hdirection⟩ := search_stays_in_arrays robots
    (show InMap (startRobot 1 (chr 'A')).pos by decide) (show InMap (rowA, colA) by decide)
  refine ⟨by decide, by decide, ⟨b, hcode, hend⟩, hdirection.trans ?_⟩
  decide +kernel

end Pintos.Warehouse
