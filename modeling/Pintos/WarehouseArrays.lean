import Pintos.WarehouseDecision
import Pintos.WarehouseTasks

/-!
# The controller's arrays

`central_control_thread` keeps what it computes in static arrays of `MAX_ROBOTS` entries,
and reads the robots from an array that `run_automated_warehouse` has allocated and
`parse_robot_tasks` has filled as far as there were tasks.  Here the round is written with
these arrays: an access behind the end of an array, and a read of a robot that was never
set, is a failure, `none`.

**The arrays hold what the controller's state says** (`controllerRound_refines`): with at
most `MAX_ROBOTS` robots, all of them set, a round with arrays does not fail, sends the
commands of a round of `Central` and leaves its state.  With more robots or fewer tasks
there is a failure (`runsSafely_iff`).
-/

namespace Pintos.Warehouse
open Function (update update_of_ne update_self)
open List (range finRange foldlM_cons)

/-! ## Arrays -/

/-- `MAX_ROBOTS`. -/
def maxRobots : Nat := 100

section Access
variable {α : Type}

/-- Reads an entry of a static array. -/
def read (a : Nat → α) (i : Nat) : Option α :=
  if i < maxRobots then some (a i) else none

/-- Writes an entry of a static array. -/
def write (a : Nat → α) (i : Nat) (x : α) : Option (Nat → α) :=
  if i < maxRobots then some (update a i x) else none

variable {a : Nat → α} {i : Nat} {x : α}

theorem read_eq (hi : i < maxRobots) : read a i = some (a i) :=
  if_pos hi

theorem write_eq (hi : i < maxRobots) : write a i x = some (update a i x) :=
  if_pos hi

end Access

/-- The static variables. -/
structure Statics where
  currentPos : Nat → Int × Int
  targetPos : Nat → Int × Int
  desiredCmd : Nat → Command
  nextPos : Nat → Int × Int
  accepted : Nat → Bool
  considered : Nat → Bool
  waitSteps : Nat → Int
  sacrificeRobotIdx : Option Nat

/-- `robots[i]`, if it has been set. -/
def robotAt (robots : List (Option Robot)) (i : Nat) : Option Robot :=
  robots[i]?.join

/-- All robots, as a loop over them reads them. -/
def allRobots (n : Nat) (robots : List (Option Robot)) : Option (Fin n → Robot) :=
  if h : ∀ i : Fin n, (robotAt robots i).isSome then some fun i => (robotAt robots i).get (h i)
  else none

/-! ## The round -/

section Round
variable (n : Nat) (robots : List (Option Robot))

/-- The loop over `wait_steps` at the start of the controller. -/
def initWaitSteps (s : Statics) : Option Statics :=
  (range n).foldlM (fun s i => do some { s with waitSteps := ← write s.waitSteps i 0 }) s

/-- The command stage 1 finds for an uncompleted robot. -/
def directionFor (s : Statics) (robot : Robot) (target : Int × Int) (i : Nat) : Option Command :=
  if s.sacrificeRobotIdx = some i then
    some .wait
  else do
    let all ← allRobots n robots
    some (getNextDirection all robot target.1 target.2)

/-- Stage 1, for one robot. -/
def stage1Robot (s : Statics) (i : Nat) : Option Statics := do
  let robot ← robotAt robots i
  let s : Statics :=
    { s with
      currentPos := ← write s.currentPos i robot.pos
      targetPos := ← write s.targetPos i (-1, -1)
      desiredCmd := ← write s.desiredCmd i .wait
      nextPos := ← write s.nextPos i robot.pos
      accepted := ← write s.accepted i false
      considered := ← write s.considered i false }
  if robot.taskCompleted then
    some s
  else
    let target := getRobotTarget robot
    let cmd ← directionFor n robots s robot target i
    some
      { s with
        targetPos := ← write s.targetPos i target
        desiredCmd := ← write s.desiredCmd i cmd
        nextPos := ← write s.nextPos i (getNextPosition robot.row robot.col cmd) }

/-- One turn of the scan for the next robot to consider; the best so far comes with
`best_wait`. -/
def scanWaiting (s : Statics) (best : Option (Nat × Int)) (i : Nat) :
    Option (Option (Nat × Int)) := do
  if (← read s.considered i) || (← robotAt robots i).taskCompleted then
    some best
  else
    let wait ← read s.waitSteps i
    match best with
    | none => some (some (i, wait))
    | some (_, bestWait) => some (if wait > bestWait then some (i, wait) else best)

/-- One turn of the loop of `can_accept_batch_move`; `false` once it has returned 0. -/
def checkMove (s : Statics) (robotIdx : Nat) (ok : Bool) (i : Nat) : Option Bool :=
  if !ok then
    some false
  else if i = robotIdx then
    some true
  else do
    let next ← read s.nextPos robotIdx
    let otherCurrent ← read s.currentPos i
    if ← read s.accepted i then
      let current ← read s.currentPos robotIdx
      let otherNext ← read s.nextPos i
      some !(current = otherCurrent ∨ current = otherNext ∨ next = otherCurrent ∨
        next = otherNext : Bool)
    else
      some !(!isSharedPlace next.1 next.2 ∧ next = otherCurrent : Bool)

/-- `can_accept_batch_move`. -/
def canAcceptMove (s : Statics) (robotIdx : Nat) : Option Bool :=
  (range n).foldlM (checkMove s robotIdx) true

/-- What stage 2 does with the robot it considers: the new arrays and `accepted_count`. -/
def considerAt (s : Statics) (acceptedCount : Nat) (i : Nat) : Option (Statics × Nat) := do
  let s : Statics := { s with considered := ← write s.considered i true }
  if (← read s.desiredCmd i) = .wait then
    some (s, acceptedCount)
  else if ← canAcceptMove n s i then
    some ({ s with accepted := ← write s.accepted i true }, acceptedCount + 1)
  else
    some (s, acceptedCount)

/-- Stage 2, with how many turns are left. -/
def stage2 : Nat → Statics × Nat → Option (Statics × Nat)
  | 0, s => some s
  | left + 1, (s, acceptedCount) => do
    match ← (range n).foldlM (scanWaiting robots s) none with
    | none => some (s, acceptedCount)
    | some (i, _) => stage2 left (← considerAt n s acceptedCount i)

/-- `get_escape_direction` for robot `i`. -/
def escapeAt (s : Statics) (i : Nat) : Option Command := do
  let robot ← robotAt robots i
  let target ← read s.targetPos i
  let all ← allRobots n robots
  some (getEscapeDirection all robot target.1 target.2)

/-- The first half of `choose_deadlock_victim`: the victim chosen before, if it can still
make room. -/
def keepVictim (s : Statics) : Option (Option (Nat × Command)) :=
  match s.sacrificeRobotIdx with
  | none => some none
  | some i =>
    if i < n then do
      if (← robotAt robots i).taskCompleted then
        some none
      else
        let direction ← escapeAt n robots s i
        some (if direction ≠ .wait then some (i, direction) else none)
    else
      some none

/-- One turn of the scan for a victim; the best so far comes with `victim_wait`. -/
def scanVictim (s : Statics) (best : Option (Nat × Command) × Int) (i : Nat) :
    Option (Option (Nat × Command) × Int) := do
  if (← robotAt robots i).taskCompleted then
    some best
  else
    let direction ← escapeAt n robots s i
    let wait ← read s.waitSteps i
    some (if direction ≠ .wait ∧ wait > best.2 then (some (i, direction), wait) else best)

/-- `choose_deadlock_victim`. -/
def chooseVictim (s : Statics) : Option (Option (Nat × Command)) := do
  match ← keepVictim n robots s with
  | some victim => some (some victim)
  | none => some (← (range n).foldlM (scanVictim n robots s) (none, -1)).1

/-- Stage 3: the new arrays and `accepted_count`. -/
def stage3 (s : Statics) (acceptedCount : Nat) : Option (Statics × Nat) := do
  if acceptedCount = 0 then
    match ← chooseVictim n robots s with
    | none => some ({ s with sacrificeRobotIdx := none }, 0)
    | some (i, direction) =>
      let robot ← robotAt robots i
      some
        ({ s with
          sacrificeRobotIdx := some i
          desiredCmd := ← write s.desiredCmd i direction
          nextPos := ← write s.nextPos i (getNextPosition robot.row robot.col direction)
          accepted := ← write s.accepted i true }, 1)
  else
    some ({ s with sacrificeRobotIdx := none }, acceptedCount)

/-- Stage 4: the commands sent, first `WAIT` to everybody. -/
def stage4 (s : Statics) (acceptedCount : Nat) : Option (Nat → Command) :=
  if acceptedCount > 0 then
    (range n).foldlM (fun cmds i => do
      if ← read s.accepted i then some (update cmds i (← read s.desiredCmd i))
      else some cmds) fun _ => .wait
  else
    some fun _ => .wait

/-- The loop over `wait_steps` at the end of a round. -/
def updateWaitSteps (s : Statics) : Option Statics :=
  (range n).foldlM (fun s i => do
    let reset := (← robotAt robots i).taskCompleted || (← read s.accepted i)
    let wait ← read s.waitSteps i
    some { s with waitSteps := ← write s.waitSteps i (if reset then 0 else wait + 1) }) s

/-- A round, once the statuses are read: the commands sent and the arrays after it. -/
def controllerRound (s : Statics) : Option (Statics × (Nat → Command)) := do
  let s ← (range n).foldlM (stage1Robot n robots) s
  let (s, acceptedCount) ← stage2 n robots n (s, 0)
  let (s, acceptedCount) ← stage3 n robots s acceptedCount
  let cmds ← stage4 n s acceptedCount
  some (← updateWaitSteps n robots s, cmds)

end Round

/-! ## The arrays hold the controller's state -/

/-- A loop over the robots that may fail and a fold over the robots, side by side. -/
theorem foldlM_finRange {n : Nat} {σ τ : Type} {f : σ → Nat → Option σ} {g : τ → Fin n → τ}
    {R : σ → τ → Prop} {x : σ} {y : τ} (h : R x y)
    (hstep : ∀ x y (i : Fin n), R x y → ∃ x', f x i = some x' ∧ R x' (g y i)) :
    ∃ x', (range n).foldlM f x = some x' ∧ R x' ((finRange n).foldl g y) := by
  rw [← List.map_coe_finRange_eq_range, List.foldlM_map]
  generalize finRange n = l
  induction l generalizing x y with
  | nil => exact ⟨x, rfl, h⟩
  | cons i l ih =>
    obtain ⟨x', hx', h'⟩ := hstep x y i h
    obtain ⟨x'', hx'', h''⟩ := ih h'
    exact ⟨x'', by rw [foldlM_cons, hx']; exact hx'', h''⟩

/-- A loop over the robots with an invariant `I`, in which what is to be done for a robot, `T`, has
been done after its turn, `D`. -/
theorem foldlM_each {n : Nat} {σ : Type} {f : σ → Nat → Option σ} {I : σ → Prop}
    {T D : Fin n → σ → Prop} {x : σ} (hI : I x) (hx : ∀ i, T i x)
    (hstep : ∀ x i, I x → T i x → ∃ x', f x i = some x' ∧ I x' ∧ D i x' ∧
      ∀ j : Fin n, j.val ≠ i → (T j x → T j x') ∧ (D j x → D j x')) :
    ∃ x', (range n).foldlM f x = some x' ∧ I x' ∧ ∀ i, D i x' := by
  obtain ⟨x', hcode, hI', hdone, -⟩ := foldlM_range
    (P := fun k x => I x ∧ (∀ i : Fin n, i.val < k → D i x) ∧ ∀ i : Fin n, k ≤ i → T i x) n
    ⟨hI, fun i hi => absurd hi (Nat.not_lt_zero _), fun i _ => hx i⟩
    fun k x hk ⟨hI, hdone, htodo⟩ => by
      obtain ⟨x', hcode, hI', hk', hother⟩ := hstep x ⟨k, hk⟩ hI (htodo ⟨k, hk⟩ (Nat.le_refl k))
      refine ⟨x', hcode, hI', fun i hi => ?_, fun i hi => ?_⟩
      · by_cases hik : i.val = k
        · obtain rfl : i = ⟨k, hk⟩ := Fin.ext hik
          exact hk'
        · exact (hother i hik).2 (hdone i (by omega))
      · exact (hother i (Nat.ne_of_gt hi)).1 (htodo i (Nat.le_of_lt hi))
  exact ⟨x', hcode, hI', fun i => hdone i i.isLt⟩

section Refinement
variable {n : Nat} {c : Central n} {s : Statics} {robots : List (Option Robot)}

/-- The array of robots holds the robots of the controller's state. -/
def RobotsHold (robots : List (Option Robot)) (c : Central n) : Prop :=
  ∀ i : Fin n, robotAt robots i = some (c.robot i)

theorem allRobots_eq (hrobots : RobotsHold robots c) : allRobots n robots = some c.robot := by
  have hset : ∀ i : Fin n, (robotAt robots i).isSome := fun i => by
    rw [hrobots i]
    rfl
  rw [allRobots, dif_pos hset, Option.some.injEq]
  funext i
  simp [hrobots i]

/-- What the static variables hold between rounds. -/
structure Between (c : Central n) (s : Statics) : Prop where
  waitSteps : ∀ i : Fin n, s.waitSteps i = c.waitSteps.get i
  sacrifice : s.sacrificeRobotIdx = c.sacrificeRobotIdx.map Fin.val

/-- The entries that stage 1 writes for a robot. -/
structure Planned (c : Central n) (s : Statics) (i : Fin n) : Prop where
  current : s.currentPos i = (c.robot i).pos
  target : s.targetPos i = c.target i
  desired : s.desiredCmd i = c.desiredCmd i
  next : s.nextPos i = c.desiredPos i

theorem directionFor_eq (hrobots : RobotsHold robots c)
    (hs : s.sacrificeRobotIdx = c.sacrificeRobotIdx.map Fin.val) (i : Fin n)
    (hdone : ¬(c.robot i).taskCompleted = true) :
    directionFor n robots s (c.robot i) (getRobotTarget (c.robot i)) i = some (c.desiredCmd i) := by
  have hiff : c.sacrificeRobotIdx.map Fin.val = some i.val ↔ c.sacrificeRobotIdx = some i := by
    cases c.sacrificeRobotIdx with
    | none => simp
    | some j => simp [Fin.ext_iff]
  simp only [directionFor, hs, hiff, allRobots_eq hrobots, some_bind, Central.desiredCmd, if_neg
    hdone, Central.target]
  split <;> rfl

/-- One turn of stage 1. -/
theorem stage1Robot_spec (hn : n ≤ maxRobots) (hrobots : RobotsHold robots c)
    (hs : Between c s) (i : Fin n) :
    ∃ s', stage1Robot n robots s i = some s' ∧ Between c s' ∧ Planned c s' i ∧
      s'.accepted i = false ∧ s'.considered i = false ∧
      ∀ j, j ≠ i.val → s'.currentPos j = s.currentPos j ∧ s'.targetPos j = s.targetPos j ∧
        s'.desiredCmd j = s.desiredCmd j ∧ s'.nextPos j = s.nextPos j ∧
        s'.accepted j = s.accepted j ∧ s'.considered j = s.considered j := by
  have hi : i.val < maxRobots := Nat.lt_of_lt_of_le i.isLt hn
  simp only [stage1Robot, hrobots i, write_eq hi, some_bind]
  by_cases hdone : (c.robot i).taskCompleted = true
  · have hwait : c.desiredCmd i = .wait := if_pos hdone
    refine ⟨_, if_pos hdone, ⟨hs.waitSteps, hs.sacrifice⟩, ⟨?_, ?_, ?_, ?_⟩, ?_, ?_, fun j hj => ?_⟩
    · exact update_self _ _ _
    · exact (update_self _ _ _).trans (if_pos hdone).symm
    · exact (update_self _ _ _).trans hwait.symm
    · refine (update_self _ _ _).trans ?_
      rw [Central.desiredPos, hwait]
      rfl
    · exact update_self _ _ _
    · exact update_self _ _ _
    · simp only [update_of_ne hj, and_self]
  · have htarget : c.target i = getRobotTarget (c.robot i) := if_neg hdone
    rw [if_neg hdone, directionFor_eq hrobots (by exact hs.sacrifice) i hdone]
    simp only [some_bind]
    refine ⟨_, rfl, ⟨hs.waitSteps, hs.sacrifice⟩, ⟨update_self _ _ _,
      (update_self _ _ _).trans htarget.symm, update_self _ _ _, update_self _ _ _⟩,
      update_self _ _ _, update_self _ _ _, fun j hj => ?_⟩
    simp only [update_of_ne hj, and_self]

/-- What the static variables hold in stage 2. -/
structure Deciding (c : Central n) (b : Batch n) (s : Statics) (acceptedCount : Nat) : Prop where
  between : Between c s
  planned : ∀ i : Fin n, Planned c s i
  accepted : ∀ i : Fin n, s.accepted i = b.accepted.get i
  considered : ∀ i : Fin n, s.considered i = b.considered.get i
  count : acceptedCount = b.acceptedCount

/-- **Stage 1.** -/
theorem stage1_refines (hn : n ≤ maxRobots) (hrobots : RobotsHold robots c) (hs : Between c s) :
    ∃ s', (range n).foldlM (stage1Robot n robots) s = some s' ∧
      Deciding c ⟨.replicate n false, .replicate n false, 0⟩ s' 0 := by
  obtain ⟨s', hcode, hbetween, hdone⟩ := foldlM_each (T := fun _ _ => True)
    (D := fun i s => Planned c s i ∧ s.accepted i = false ∧ s.considered i = false) hs
    (fun _ => trivial) fun s i hs _ => by
      obtain ⟨s', hcode, hbetween, hplanned, hacc, hcons, hsame⟩ := stage1Robot_spec hn hrobots hs i
      refine ⟨s', hcode, hbetween, ⟨hplanned, hacc, hcons⟩, fun j hj => ⟨id, ?_⟩⟩
      rintro ⟨hp, ha, hc⟩
      obtain ⟨h1, h2, h3, h4, h5, h6⟩ := hsame j hj
      exact ⟨⟨h1.trans hp.current, h2.trans hp.target, h3.trans hp.desired, h4.trans hp.next⟩,
        h5.trans ha, h6.trans hc⟩
  refine ⟨s', hcode, hbetween, fun i => (hdone i).1, fun i => ?_, fun i => ?_, rfl⟩
  · rw [(hdone i).2.1, get_replicate_fin]
  · rw [(hdone i).2.2, get_replicate_fin]

/-! ### Stage 2 -/

section Stage2
variable {b : Batch n} {count : Nat}

section
variable (hn : n ≤ maxRobots) (hrobots : RobotsHold robots c) (h : Deciding c b s count)
include hn hrobots h

/-- A turn of the scan for the next robot to consider. -/
theorem scanWaiting_step (best : Option (Nat × Int)) (found : Option (Fin n)) (i : Fin n)
    (hbest : best = found.map fun i => (i.val, c.waitSteps.get i)) :
    ∃ best', scanWaiting robots s best i = some best' ∧
      best' = (c.longerWaiting b.considered found i).map fun i => (i.val, c.waitSteps.get i) := by
  subst hbest
  have hi : i.val < maxRobots := Nat.lt_of_lt_of_le i.isLt hn
  simp only [scanWaiting, read_eq hi, hrobots i, h.considered i, h.between.waitSteps i, some_bind,
    Central.longerWaiting]
  by_cases hskip : (b.considered.get i || (c.robot i).taskCompleted) = true
  · exact ⟨_, if_pos hskip, by rw [if_pos hskip]⟩
  · rw [if_neg hskip, if_neg hskip]
    cases found with
    | none => exact ⟨_, rfl, rfl⟩
    | some j =>
      refine ⟨_, rfl, ?_⟩
      simp only [Option.map_some]
      split <;> rfl

/-- The scan finds the robot that has waited longest. -/
theorem scanWaiting_refines :
    (range n).foldlM (scanWaiting robots s) none
      = some ((c.longestWaiting b.considered).map fun i => (i.val, c.waitSteps.get i)) := by
  obtain ⟨best, hcode, hbest⟩ := foldlM_finRange
    (R := fun best found => best = found.map fun i => (i.val, c.waitSteps.get i))
    (x := none) (y := none) rfl (scanWaiting_step hn hrobots h)
  rw [hcode, hbest]
  rfl

end

/-- The first `k` robots are not in the way of robot `i`. -/
def FreeUpto (c : Central n) (b : Batch n) (i : Fin n) (k : Nat) (ok : Bool) : Prop :=
  ok = true ↔ ∀ j : Fin n, j.val < k → j ≠ i → c.inTheWay c.stage1 b.accepted i j = false

theorem FreeUpto.step (hn : n ≤ maxRobots) (h : Deciding c b s count) (i : Fin n) (k : Nat)
    (ok : Bool) (hk : k < n) (hbefore : FreeUpto c b i k ok) :
    ∃ ok', checkMove s i ok k = some ok' ∧ FreeUpto c b i (k + 1) ok' := by
  have hi : i.val < maxRobots := Nat.lt_of_lt_of_le i.isLt hn
  have hkm : k < maxRobots := Nat.lt_of_lt_of_le hk hn
  have hsplit : (∀ j : Fin n, j.val < k + 1 → j ≠ i →
      c.inTheWay c.stage1 b.accepted i j = false) ↔
      ok = true ∧ ((⟨k, hk⟩ : Fin n) ≠ i → c.inTheWay c.stage1 b.accepted i ⟨k, hk⟩ = false) := by
    rw [show ok = true ↔ _ from hbefore]
    refine ⟨fun hall => ⟨fun j hj => hall j (by omega), hall ⟨k, hk⟩ (Nat.lt_succ_self k)⟩,
      fun hall j hj hne => ?_⟩
    by_cases hjk : j.val = k
    · obtain rfl : j = ⟨k, hk⟩ := Fin.ext hjk
      exact hall.2 hne
    · exact hall.1 j (by omega) hne
  unfold FreeUpto
  rw [hsplit]
  unfold checkMove
  cases ok with
  | false => exact ⟨false, rfl, by simp⟩
  | true =>
    by_cases hki : k = i.val
    · have heq : (⟨k, hk⟩ : Fin n) = i := Fin.ext hki
      exact ⟨true, by simp [hki], by simp [heq]⟩
    · have hne : (⟨k, hk⟩ : Fin n) ≠ i := fun heq => hki (congrArg Fin.val heq)
      have hacc := h.accepted ⟨k, hk⟩
      have hplan := h.planned ⟨k, hk⟩
      simp only at hacc
      have hcurrent : s.currentPos k = (c.robot ⟨k, hk⟩).pos := hplan.current
      have hnext : s.nextPos k = c.desiredPos ⟨k, hk⟩ := hplan.next
      simp only [hacc, hcurrent, hnext, (h.planned i).current, (h.planned i).next, read_eq hi,
        read_eq hkm, some_bind, if_neg hki, Bool.not_true, Bool.false_eq_true, if_false, hne, ne_eq,
        not_false_eq_true, true_and, forall_const, Central.inTheWay, Central.stage1_nextPos]
      cases b.accepted.get ⟨k, hk⟩ with
      | true => exact ⟨_, rfl, by simp⟩
      | false =>
        refine ⟨_, rfl, ?_⟩
        cases isSharedPlace (c.desiredPos i).1 (c.desiredPos i).2 <;> simp

/-- `can_accept_batch_move` with arrays. -/
theorem canAcceptMove_refines (hn : n ≤ maxRobots) (h : Deciding c b s count) (i : Fin n) :
    canAcceptMove n s i = some (c.canAcceptBatchMove c.stage1 b.accepted i) := by
  obtain ⟨ok, hcode, hok⟩ := foldlM_range n
    (show FreeUpto c b i 0 true by simp [FreeUpto]) (FreeUpto.step hn h i)
  rw [canAcceptMove, hcode, Option.some.injEq, Bool.eq_iff_iff, show ok = true ↔ _ from hok,
    Central.canAcceptBatchMove_iff]
  exact forall_congr' fun j => ⟨fun h' => h' j.isLt, fun h' _ => h'⟩

/-- Writing an entry of an array, and of the vector it holds. -/
theorem update_get {α : Type} {a : Nat → α} {v : Vector α n} (h : ∀ i : Fin n, a i = v.get i)
    (i : Fin n) (x : α) (j : Fin n) :
    update a i x j = (v.set i x i.isLt).get j := by
  rw [get_set_fin]
  by_cases hij : i = j
  · subst hij
    rw [if_pos rfl, update_self]
  · rw [if_neg hij, update_of_ne (fun heq => hij (Fin.ext heq.symm)), h j]

theorem considerAt_refines (hn : n ≤ maxRobots) (h : Deciding c b s count) (i : Fin n) :
    ∃ s' count', considerAt n s count i = some (s', count') ∧
      Deciding c (c.consider c.stage1 b i) s' count' := by
  have hi : i.val < maxRobots := Nat.lt_of_lt_of_le i.isLt hn
  have hmarked : Deciding c { b with considered := b.considered.set i true i.isLt }
      { s with considered := update s.considered i true } count :=
    ⟨⟨h.between.waitSteps, h.between.sacrifice⟩,
      fun j => ⟨(h.planned j).current, (h.planned j).target, (h.planned j).desired,
        (h.planned j).next⟩,
      h.accepted, update_get h.considered i true, h.count⟩
  have haccept := canAcceptMove_refines hn hmarked i
  simp only [considerAt, write_eq hi, read_eq hi, (h.planned i).desired, haccept, some_bind,
    Central.consider, Central.stage1_desiredCmd]
  by_cases hwait : c.desiredCmd i = .wait
  · exact ⟨_, _, if_pos hwait, by rwa [if_neg fun hand => hand.1 hwait]⟩
  · rw [if_neg hwait]
    by_cases hcan : c.canAcceptBatchMove c.stage1 b.accepted i = true
    · refine ⟨_, _, if_pos hcan, ?_⟩
      rw [if_pos ⟨hwait, hcan⟩]
      exact ⟨⟨h.between.waitSteps, h.between.sacrifice⟩,
        fun j => ⟨(h.planned j).current, (h.planned j).target, (h.planned j).desired,
          (h.planned j).next⟩,
        update_get h.accepted i true, hmarked.considered, congrArg (· + 1) h.count⟩
    · exact ⟨_, _, if_neg hcan, by rwa [if_neg fun hand => hcan hand.2]⟩

/-- **Stage 2.** -/
theorem stage2_refines (hn : n ≤ maxRobots) (hrobots : RobotsHold robots c) (left : Nat)
    (h : Deciding c b s count) :
    ∃ s' count', stage2 n robots left (s, count) = some (s', count') ∧
      Deciding c (c.acceptLoop c.stage1 left b) s' count' := by
  induction left generalizing b s count with
  | zero => exact ⟨s, count, rfl, h⟩
  | succ left ih =>
    simp only [stage2, scanWaiting_refines hn hrobots h, some_bind, Central.acceptLoop]
    cases c.longestWaiting b.considered with
    | none => exact ⟨s, count, rfl, h⟩
    | some i =>
      obtain ⟨s', count', hcode, h'⟩ := considerAt_refines hn h i
      obtain ⟨s'', count'', hloop, h''⟩ := ih h'
      exact ⟨s'', count'', by simpa [hcode] using hloop, h''⟩

end Stage2

/-! ### Stage 3 -/

section Stage3
variable {b : Batch n} {count : Nat}

section
variable (hn : n ≤ maxRobots) (hrobots : RobotsHold robots c) (h : Deciding c b s count)
include hn hrobots h

theorem escapeAt_refines (i : Fin n) : escapeAt n robots s i = some (c.escape i) := by
  simp only [escapeAt, hrobots i, read_eq (Nat.lt_of_lt_of_le i.isLt hn), (h.planned i).target,
    allRobots_eq hrobots, some_bind]
  rfl

/-- A turn of the scan for a victim. -/
theorem scanVictim_step (best : Option (Nat × Command) × Int) (found : Option (Fin n) × Int)
    (i : Fin n) (hbest : best = (found.1.map fun i => (i.val, c.escape i), found.2)) :
    ∃ best', scanVictim n robots s best i = some best' ∧
      best' = ((c.betterVictim found i).1.map fun i => (i.val, c.escape i),
        (c.betterVictim found i).2) := by
  subst hbest
  simp only [scanVictim, hrobots i, escapeAt_refines hn hrobots h i, read_eq (Nat.lt_of_lt_of_le
    i.isLt hn), h.between.waitSteps i, some_bind, Central.betterVictim]
  by_cases hdone : (c.robot i).taskCompleted = true
  · exact ⟨_, if_pos hdone, by rw [if_pos hdone]⟩
  · rw [if_neg hdone, if_neg hdone]
    refine ⟨_, rfl, ?_⟩
    split <;> rfl

theorem scanVictim_refines :
    ∃ best, (range n).foldlM (scanVictim n robots s) (none, -1) = some best ∧
      best.1 = c.longestWaitingEscape.map fun i => (i.val, c.escape i) := by
  obtain ⟨best, hcode, hbest⟩ := foldlM_finRange
    (R := fun best (found : Option (Fin n) × Int) =>
      best = (found.1.map fun i => (i.val, c.escape i), found.2))
    (x := (none, -1)) (y := (none, -1)) rfl (scanVictim_step hn hrobots h)
  exact ⟨best, hcode, congrArg Prod.fst hbest⟩

/-- `choose_deadlock_victim` with arrays. -/
theorem chooseVictim_refines :
    chooseVictim n robots s
      = some (c.chooseDeadlockVictim.map fun i => (i.val, c.escape i)) := by
  obtain ⟨best, hscan, hbest⟩ := scanVictim_refines hn hrobots h
  unfold chooseVictim keepVictim Central.chooseDeadlockVictim
  rw [h.between.sacrifice]
  cases c.sacrificeRobotIdx with
  | none => simp [hscan, hbest]
  | some i =>
    simp only [Option.map_some, i.isLt, if_true, hrobots i, escapeAt_refines hn hrobots h i,
      some_bind]
    by_cases hdone : (c.robot i).taskCompleted = true
    · simp [hdone, hscan, hbest]
    · by_cases hescape : c.escape i = .wait
      · simp [hdone, hescape, hscan, hbest]
      · simp [hdone, hescape]

end

/-- What the static variables hold once stage 3 has decided. -/
structure Decided (c : Central n) (d : Decision n) (s : Statics) (acceptedCount : Nat) :
    Prop where
  waitSteps : ∀ i : Fin n, s.waitSteps i = c.waitSteps.get i
  sacrifice : s.sacrificeRobotIdx = d.sacrificeRobotIdx.map Fin.val
  accepted : ∀ i : Fin n, s.accepted i = d.accepted.get i
  desired : ∀ i : Fin n, s.desiredCmd i = d.desiredCmd.get i
  idle : acceptedCount = 0 → ∀ i : Fin n, d.accepted.get i = false

/-- **Stage 3.** -/
theorem stage3_refines (hn : n ≤ maxRobots) (hrobots : RobotsHold robots c)
    (h : Deciding c (c.batch c.stage1) s count) :
    ∃ s' count', stage3 n robots s count = some (s', count') ∧
      Decided c c.decision s' count' := by
  have hidle := (Central.accepted_batch c).count.mp
  have hdesired : ∀ i : Fin n, s.desiredCmd i = c.stage1.desiredCmd.get i := fun i => by
    rw [(h.planned i).desired, Central.stage1_desiredCmd]
  simp only [stage3, chooseVictim_refines hn hrobots h, some_bind, Central.decision, h.count]
  by_cases hzero : (c.batch c.stage1).acceptedCount = 0
  · rw [if_pos hzero, if_pos hzero]
    cases hvictim : c.chooseDeadlockVictim with
    | none =>
      exact ⟨_, _, rfl, h.between.waitSteps, rfl, h.accepted, hdesired, fun _ => hidle hzero⟩
    | some v =>
      have hv : v.val < maxRobots := Nat.lt_of_lt_of_le v.isLt hn
      simp only [Option.map_some, hrobots v, write_eq hv, some_bind]
      exact ⟨_, _, rfl, h.between.waitSteps, rfl, update_get h.accepted v true,
        update_get hdesired v _, fun h0 => absurd h0 Nat.one_ne_zero⟩
  · rw [if_neg hzero, if_neg hzero]
    exact ⟨_, _, rfl, h.between.waitSteps, rfl, h.accepted, hdesired, fun h0 => absurd h0 hzero⟩

end Stage3

/-! ### Stage 4 and the waiting times -/

section Stage4
variable {d : Decision n} {count : Nat}

/-- **Stage 4.** -/
theorem stage4_refines (hn : n ≤ maxRobots) (h : Decided c d s count) :
    ∃ cmds, stage4 n s count = some cmds ∧ ∀ i : Fin n, cmds i = d.command i := by
  unfold stage4
  by_cases hcount : count > 0
  · rw [if_pos hcount]
    refine Exists.imp (fun cmds h => ⟨h.1, h.2.2⟩) (foldlM_each (I := fun _ => True)
      (T := fun i cmds => cmds i = .wait) trivial (fun _ => rfl) fun cmds i _ hwait => ?_)
    have hi : i.val < maxRobots := Nat.lt_of_lt_of_le i.isLt hn
    simp only [read_eq hi, h.accepted i, h.desired i, some_bind]
    by_cases hyes : d.accepted.get i = true
    · refine ⟨_, if_pos hyes, trivial, ?_, fun j hj => ?_⟩
      · rw [update_self, Decision.command, if_pos hyes]
      · exact ⟨(update_of_ne hj _ _).trans, (update_of_ne hj _ _).trans⟩
    · refine ⟨cmds, if_neg hyes, trivial, ?_, fun _ _ => ⟨id, id⟩⟩
      rw [hwait, Decision.command, if_neg hyes]
  · rw [if_neg hcount]
    refine ⟨_, rfl, fun i => ?_⟩
    rw [Decision.command, h.idle (by omega) i]
    rfl

/-- The loop over the waiting times. -/
theorem updateWaitSteps_refines (hn : n ≤ maxRobots) (hrobots : RobotsHold robots c)
    (h : Decided c c.decision s count) :
    ∃ s', updateWaitSteps n robots s = some s' ∧ Between c.afterCommands s' := by
  refine Exists.imp (fun s' h => ⟨h.1, h.2.2, h.2.1.2⟩) (foldlM_each
    (I := fun s => (∀ i : Fin n, s.accepted i = c.decision.accepted.get i) ∧
      s.sacrificeRobotIdx = c.decision.sacrificeRobotIdx.map Fin.val)
    (T := fun i s => s.waitSteps i = c.waitSteps.get i) ⟨h.accepted, h.sacrifice⟩ h.waitSteps
    fun s i hI hwait => ?_)
  have hi : i.val < maxRobots := Nat.lt_of_lt_of_le i.isLt hn
  simp only [hrobots i, read_eq hi, write_eq hi, hI.1 i, hwait, some_bind]
  refine ⟨_, rfl, hI, ?_, fun j hj => ⟨(update_of_ne hj _ _).trans, (update_of_ne hj _ _).trans⟩⟩
  rw [Central.afterCommands, get_ofFn_fin]
  exact update_self _ _ _

end Stage4

/-- **A round with arrays is a round of the controller's state**, with at most `MAX_ROBOTS`
robots, all of them set. -/
theorem controllerRound_refines (hn : n ≤ maxRobots) (hrobots : RobotsHold robots c)
    (hs : Between c s) :
    ∃ s' cmds, controllerRound n robots s = some (s', cmds) ∧ Between c.afterCommands s' ∧
      ∀ i : Fin n, cmds i = c.command.get i := by
  obtain ⟨s1, hstage1, h1⟩ := stage1_refines hn hrobots hs
  obtain ⟨s2, count2, hstage2, h2⟩ := stage2_refines hn hrobots n h1
  obtain ⟨s3, count3, hstage3, h3⟩ := stage3_refines hn hrobots h2
  obtain ⟨cmds, hstage4, hcmds⟩ := stage4_refines hn h3
  obtain ⟨s', hwait, hs'⟩ := updateWaitSteps_refines hn hrobots h3
  refine ⟨s', cmds, ?_, hs', fun i => (hcmds i).trans (get_ofFn_fin _ i).symm⟩
  simp only [controllerRound, hstage1, hstage2, hstage3, hstage4, hwait, some_bind]

end Refinement

/-! ## Whole runs -/

/-- The static variables as the program starts. -/
def Statics.start : Statics where
  currentPos _ := (0, 0)
  targetPos _ := (0, 0)
  desiredCmd _ := .wait
  nextPos _ := (0, 0)
  accepted _ := false
  considered _ := false
  waitSteps _ := 0
  sacrificeRobotIdx := none

/-- The arrays: the allocated one and the static ones. -/
structure Arrays where
  robots : List (Option Robot)
  statics : Statics

section Run
variable (n : Nat)

/-- The controller copies the statuses.  This sets no robot: it leaves the item and the
destination alone. -/
def copyStatuses (robots : List (Option Robot)) (msgs : Nat → Status) : List (Option Robot) :=
  robots.mapIdx fun i robot => robot.map fun robot => robot.copyStatus (msgs i)

/-- The loop that finds out whether all tasks are done. -/
def allCompletedAt (robots : List (Option Robot)) : Option Bool :=
  (range n).foldlM (fun all i =>
    if all then do
      let robot ← robotAt robots i
      some (robot.taskCompleted ∧ robot.currentPayload = 0 : Bool)
    else some false) true

/-- A turn of the controller, with the messages it receives.  Once all tasks are done the
machine is powered off, and nothing happens. -/
def controllerTurn (msgs : Nat → Status) (a : Arrays) : Option Arrays := do
  let robots := copyStatuses a.robots msgs
  if ← allCompletedAt n robots then
    some ⟨robots, a.statics⟩
  else
    let (statics, _) ← controllerRound n robots a.statics
    some ⟨robots, statics⟩

/-- A turn of the thread of robot `i`, with the command it receives. -/
def robotTurn (i : Fin n) (cmd : Command) (a : Arrays) : Option Arrays := do
  let robot ← robotAt a.robots i
  let all ← allRobots n a.robots
  some { a with robots := a.robots.set i (some (executeCommand all robot cmd)) }

/-- Whose turn it is, and what it receives. -/
inductive Turn where
  | controller (msgs : Nat → Status)
  | robot (i : Fin n) (cmd : Command)

variable {n} in
def Turn.exec (a : Arrays) : Turn n → Option Arrays
  | controller msgs => controllerTurn n msgs a
  | robot i cmd => robotTurn n i cmd a

/-- What `run_automated_warehouse` sets up, and the start of the controller: the number of
robots and the arrays. -/
def setUp (m : Memory) (argv1 argv2 : Extent) (taskCopy : Nat) : Option (Nat × Arrays) := do
  let numberOfRobots ← CString.atoi (m.load argv1.start argv1.len)
  let n := numberOfRobots.toNat
  let (_, robots) ← parseRobotTasks m argv2 taskCopy (List.replicate n none) numberOfRobots
  some (n, ⟨robots, ← initWaitSteps n Statics.start⟩)

/-- **A run is safe** if, however the threads take turns and whatever messages and commands
they receive, no index is behind the end of its array and no robot is read that the tasks
have not set. -/
def RunsSafely (m : Memory) (argv1 argv2 : Extent) (taskCopy : Nat) : Prop :=
  ∃ n a, setUp m argv1 argv2 taskCopy = some (n, a) ∧
    ∀ turns : List (Turn n), (turns.foldlM Turn.exec a).isSome

variable {n} {a : Arrays}

/-- **The invariant of a run**: the arrays hold a state of the controller. -/
def Arrays.Hold (n : Nat) (a : Arrays) : Prop :=
  ∃ c : Central n, RobotsHold a.robots c ∧ Between c a.statics

section
variable {robots : List (Option Robot)} {c : Central n} (h : RobotsHold robots c)
include h

theorem allCompletedAt_isSome : ∃ all, allCompletedAt n robots = some all := by
  obtain ⟨all, hcode, -⟩ := foldlM_range (P := fun _ _ => True) n (s := true) trivial
    (f := fun all i => if all then do
        let robot ← robotAt robots i
        some (robot.taskCompleted ∧ robot.currentPayload = 0 : Bool)
      else some false) fun k all hk _ => by
    cases all with
    | false => exact ⟨false, rfl, trivial⟩
    | true => exact ⟨_, by simp [show robotAt robots k = _ from h ⟨k, hk⟩]; rfl, trivial⟩
  exact ⟨all, hcode⟩

theorem robotsHold_copyStatuses (msgs : Nat → Status) :
    RobotsHold (copyStatuses robots msgs)
      { c with robots := copyBack c.robots (Vector.ofFn fun i => msgs i) } := by
  intro i
  have hi := h i
  unfold robotAt at hi ⊢
  rw [copyStatuses, List.getElem?_mapIdx]
  cases hget : robots[i.val]? with
  | none => simp [hget] at hi
  | some robot =>
    rw [hget] at hi
    obtain rfl : robot = some (c.robot i) := hi
    simp [Central.robot, copyBack]

end

/-- **Every turn keeps it**, with at most `MAX_ROBOTS` robots, and does not fail. -/
theorem Arrays.Hold.exec (hn : n ≤ maxRobots) (h : a.Hold n) (turn : Turn n) :
    ∃ a', turn.exec a = some a' ∧ a'.Hold n := by
  obtain ⟨c, hrobots, hbetween⟩ := h
  cases turn with
  | controller msgs =>
    have hcopied := robotsHold_copyStatuses hrobots msgs
    obtain ⟨all, hall⟩ := allCompletedAt_isSome hcopied
    obtain ⟨s', cmds, hround, hbetween', -⟩ :=
      controllerRound_refines hn hcopied ⟨hbetween.waitSteps, hbetween.sacrifice⟩
    have hafter : RobotsHold (copyStatuses a.robots msgs) (Central.afterCommands
        { c with robots := copyBack c.robots (Vector.ofFn fun i => msgs i) }) := hcopied
    simp only [Turn.exec, controllerTurn, hall, hround, some_bind]
    cases all with
    | true => exact ⟨_, rfl, _, hcopied, hbetween.waitSteps, hbetween.sacrifice⟩
    | false => exact ⟨_, rfl, _, hafter, hbetween'⟩
  | robot i cmd =>
    simp only [Turn.exec, robotTurn, hrobots i, allRobots_eq hrobots, some_bind]
    refine ⟨_, rfl, c.executeRobot (Vector.ofFn fun _ => cmd) i, fun j => ?_, hbetween.waitSteps,
      hbetween.sacrifice⟩
    have hj := hrobots j
    unfold robotAt at hj ⊢
    have hmoved : (c.executeRobot (Vector.ofFn fun _ => cmd) i).robot j
        = if i = j then executeCommand c.robot (c.robot i) cmd else c.robot j := by
      rw [Central.executeRobot, get_ofFn_fin]
      exact get_set_fin c.robots i j _
    rw [hmoved]
    by_cases hij : i = j
    · subst hij
      have hlt : i.val < a.robots.length := by
        by_contra hge
        rw [List.getElem?_eq_none (Nat.not_lt.mp hge)] at hj
        cases hj
      simp [hlt]
    · rw [if_neg hij, List.getElem?_set_ne fun heq => hij (Fin.ext heq)]
      exact hj

theorem Arrays.Hold.run (hn : n ≤ maxRobots) (h : a.Hold n) (turns : List (Turn n)) :
    (turns.foldlM Turn.exec a).isSome := by
  induction turns generalizing a with
  | nil => rfl
  | cons turn turns ih =>
    obtain ⟨a', hturn, h'⟩ := h.exec hn turn
    rw [foldlM_cons, hturn]
    exact ih h'

end Run

/-! ### The start -/

/-- The loop over `wait_steps` needs an entry for each robot. -/
theorem initWaitSteps_of_le {n : Nat} (hn : n ≤ maxRobots) :
    ∃ s, initWaitSteps n Statics.start = some s ∧ s.sacrificeRobotIdx = none ∧
      ∀ i, i < n → s.waitSteps i = 0 := by
  refine Exists.imp (fun s h => ⟨h.1, h.2.1, fun i hi => h.2.2 ⟨i, hi⟩⟩) (foldlM_each
    (I := fun s => s.sacrificeRobotIdx = none) (T := fun _ _ => True)
    (D := fun (i : Fin n) s => s.waitSteps i = 0) rfl (fun _ => trivial) fun s i hs _ => ?_)
  refine ⟨{ s with waitSteps := update s.waitSteps i 0 }, ?_, hs, update_self _ _ _,
    fun j hj => ⟨id, (update_of_ne hj _ _).trans⟩⟩
  rw [write_eq (Nat.lt_of_lt_of_le i.isLt hn)]
  rfl

theorem initWaitSteps_of_lt {n : Nat} (hn : maxRobots < n) (s : Statics) :
    initWaitSteps n s = none := by
  obtain ⟨k, rfl⟩ : ∃ k, n = (maxRobots + 1) + k := Nat.exists_eq_add_of_le hn
  have hfail : ∀ s : Statics, write s.waitSteps maxRobots 0 = none := fun s =>
    if_neg (Nat.lt_irrefl maxRobots)
  rw [initWaitSteps, List.range_add, List.foldlM_append, List.range_succ, List.foldlM_append]
  cases (range maxRobots).foldlM
      (fun (s : Statics) i => do some { s with waitSteps := ← write s.waitSteps i 0 }) s with
  | none => rfl
  | some s' => simp [hfail]

section Start
variable {m : Memory} {argv1 argv2 : Extent} {number tasks junk junk' : List Byte}

/-- **Which command lines run safely**: those with at most `MAX_ROBOTS` robots, and a task
for each among the first 255 characters of the task string. -/
theorem runsSafely_iff (taskCopy : Nat)
    (hnumber : m.load argv1.start argv1.len = number ++ 0 :: junk)
    (htasks : m.load argv2.start argv2.len = tasks ++ 0 :: junk') (hzero : 0 ∉ tasks) :
    RunsSafely m argv1 argv2 taskCopy ↔
      ∃ n, CString.atoi (m.load argv1.start argv1.len) = some n ∧ n ≤ maxRobots ∧
        n ≤ (tasksOf (tasks.take 255)).length := by
  obtain ⟨numberOfRobots, hatoi⟩ := CString.atoi_append number junk
  rw [← hnumber] at hatoi
  obtain ⟨m', robots', hparse, hrobots, -⟩ := parseRobotTasks_spec taskCopy htasks hzero
    (show numberOfRobots.toNat ≤ (List.replicate numberOfRobots.toNat (none : Option Robot)).length
      by rw [List.length_replicate])
  simp only [RunsSafely, setUp, hatoi, hparse, some_bind, Option.some.injEq, exists_eq_left']
  constructor
  · rintro ⟨n, a, hsetUp, hsafe⟩
    -- the loop over `wait_steps` has come to its end
    by_cases hn : maxRobots < numberOfRobots.toNat
    · simp [initWaitSteps_of_lt hn] at hsetUp
    obtain ⟨s, hs, -⟩ := initWaitSteps_of_le (Nat.not_lt.mp hn)
    rw [hs, some_bind, Option.some.injEq, Prod.mk.injEq] at hsetUp
    obtain ⟨rfl, rfl⟩ := hsetUp
    refine ⟨by omega, ?_⟩
    by_contra hfew
    -- the thread of the first robot without a task reads it
    have hlt : (tasksOf (tasks.take 255)).length < numberOfRobots.toNat := by omega
    have hread : robotAt robots' (tasksOf (tasks.take 255)).length = none := by
      rw [robotAt, hrobots, if_neg (by omega), List.getElem?_replicate, if_pos hlt]
      rfl
    have hturn := hsafe [.robot ⟨_, hlt⟩ .wait]
    simp [Turn.exec, robotTurn, hread] at hturn
  · rintro ⟨hmax, hfew⟩
    have hn : numberOfRobots.toNat ≤ maxRobots := by omega
    obtain ⟨s, hs, hsacrifice, hwait⟩ := initWaitSteps_of_le hn
    refine ⟨_, _, by rw [hs]; rfl, Arrays.Hold.run hn ?_⟩
    have hset : ∀ i : Fin numberOfRobots.toNat, robotAt robots' i
        = some (taskRobot ((tasksOf (tasks.take 255)).getD i [])) := fun i => by
      have hi : i.val < (tasksOf (tasks.take 255)).length := by omega
      rw [robotAt, hrobots, if_pos (by omega), List.getD_eq_getElem?_getD,
        List.getElem?_eq_getElem hi]
      rfl
    refine ⟨⟨Vector.ofFn fun i => taskRobot ((tasksOf (tasks.take 255)).getD i []),
      Vector.ofFn fun i => (taskRobot ((tasksOf (tasks.take 255)).getD i [])).status,
      .replicate _ 0, none⟩, fun i => ?_, fun i => ?_, hsacrifice⟩
    · rw [hset i, Central.robot, get_ofFn_fin]
    · rw [hwait i i.isLt, get_replicate_fin]

end Start

/-- Two robots with a task each. -/
theorem runsSafely_iff_two :
    RunsSafely (Memory.store (Memory.store (fun _ => 255) 5000 [ch '2', 0]) 5100
      (CString.lit ['3', 'A', ':', '7', 'C'])) ⟨5000, 2⟩ ⟨5100, 6⟩ 6000 :=
  (@runsSafely_iff _ ⟨5000, 2⟩ ⟨5100, 6⟩ [ch '2'] (['3', 'A', ':', '7', 'C'].map ch) [] [] 6000
    (by decide +kernel) (by decide +kernel) (by decide)).mpr
    ⟨2, by decide +kernel, by decide, by decide +kernel⟩

/-- **A robot without a task.**  Two robots are asked for and one task is given: the second
robot's thread reads what was never written. -/
theorem runsSafely_few_tasks :
    let m := Memory.store (Memory.store (fun _ => 255) 5000 [ch '2', 0]) 5100
      (CString.lit ['3', 'A'])
    (∃ a, setUp m ⟨5000, 2⟩ ⟨5100, 3⟩ 6000 = some (2, a) ∧
      robotTurn 2 1 .wait a = none) ∧ ¬RunsSafely m ⟨5000, 2⟩ ⟨5100, 3⟩ 6000 := by
  intro m
  have hfails : ((setUp m ⟨5000, 2⟩ ⟨5100, 3⟩ 6000).map fun x => (x.1, x.2.robots))
      = some (2, [some (startRobot 3 65), none]) := by
    decide +kernel
  obtain ⟨⟨n, a⟩, hsetUp, hx⟩ := Option.map_eq_some_iff.mp hfails
  obtain ⟨rfl, hrobots⟩ := Prod.mk.inj hx
  have hread : robotAt a.robots (1 : Fin 2).val = none := by
    rw [show a.robots = _ from hrobots]
    rfl
  have hturn : robotTurn 2 1 .wait a = none := by
    rw [robotTurn, hread]
    rfl
  refine ⟨⟨a, hsetUp, hturn⟩, ?_⟩
  rintro ⟨n, a', hsetUp', hsafe⟩
  cases hsetUp'.symm.trans hsetUp
  have hrun := hsafe [.robot (1 : Fin 2) .wait]
  simp [Turn.exec, hturn] at hrun

end Pintos.Warehouse
