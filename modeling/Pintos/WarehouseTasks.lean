import Pintos.Tokens
import Pintos.WarehouseMap

/-!
# The robots' tasks

`parse_robot_tasks` of `robot.c`: the task string is copied to a buffer of 256 bytes and
cut at the colons; the first character of a task is the number of the item, the second the
destination.  A `char` is signed.  Entries of the array of robots that have never been
written are `none`.

The robots get the tasks in order, as many as there are of both (`parseRobotTasks_spec`),
and **a rendering of tasks reads back as these tasks** (`parseRobotTasks_render`).
-/

namespace Pintos.Warehouse
open List
open CString (lit ptr strlcpy strtokR tokens)

/-! ## The code -/

/-- Writes an entry of the array of robots. -/
def setEntry (robots : List (Option Robot)) (i : Nat) (r : Robot) : Option (List (Option Robot)) :=
  if i < robots.length then some (robots.set i (some r)) else none

/-- The loop of `parse_robot_tasks`, from robot `i` on, with how many follow. -/
def parseLoop (limit : Nat) : Nat → Nat → Memory → Option Nat → Nat → List (Option Robot) →
    Option (Memory × List (Option Robot))
  | 0, _, m, _, _, robots => some (m, robots)
  | _ + 1, _, m, none, _, robots => some (m, robots)
  | left + 1, i, m, some task, save, robots => do
    assert (task + 1 < limit)
    let item := (m task).toInt - chr '0'
    let destination := (m (task + 1)).toInt
    let robots ← setEntry robots i (startRobot item destination)
    let (m, task, save) ← strtokR m limit save (lit [':'])
    parseLoop limit left (i + 1) m task save robots

/-- `parse_robot_tasks`, with the object the task string is in and the address of the
buffer `task_copy`. -/
def parseRobotTasks (m : Memory) (taskString : Extent) (taskCopy : Nat)
    (robots : List (Option Robot)) (numRobots : Int) : Option (Memory × List (Option Robot)) := do
  let (m, _) ← strlcpy m taskCopy (m.load taskString.start taskString.len) 256
  let limit := taskCopy + 256
  let (m, task, save) ← strtokR m limit taskCopy (lit [':'])
  parseLoop limit numRobots.toNat 0 m task save robots

/-! ## What it does -/

/-- The tasks in a string. -/
def tasksOf (s : List Byte) : List (List Byte) :=
  tokens (ch ':') s

/-- The robot with the task that a token describes. -/
def taskRobot (t : List Byte) : Robot :=
  startRobot ((t.getD 0 0).toInt - chr '0') (t.getD 1 0).toInt

section Parse
variable {m : Memory} {limit base save i : Nat} {task : Option Nat}

/-- **Between two calls of `strtok_r`**: `ts` are the tokens to come, the first of which has
been found already. -/
def Pending (m : Memory) (limit base : Nat) (task : Option Nat) (save : Nat) :
    List (List Byte) → Prop
  | [] => task = none
  | t :: ts => ∃ token tail junk junk', task = some token ∧ t ≠ [] ∧
      ptr m limit token = t ++ 0 :: junk ∧ ptr m limit save = tail ++ 0 :: junk' ∧ 0 ∉ tail ∧
      base ≤ save ∧ tasksOf tail = ts

theorem pending_strtokR {s : Nat} {rest junk : List Byte} (hs : ptr m limit s = rest ++ 0 :: junk)
    (hrest : 0 ∉ rest) (hbase : base ≤ s) :
    ∃ m' task save, strtokR m limit s (lit [':']) = some (m', task, save) ∧
      Pending m' limit base task save (tasksOf rest) ∧
      ∀ x, x < base ∨ limit ≤ x → m' x = m x := by
  rcases CString.strtokR_spec (d := ch ':') (by decide) hs hrest with
    ⟨hnone, save, hcode⟩ | ⟨t, tail, junk', m', token, save, hcode, htokens, hne, hzero, -, htoken,
      hsave, hle, hframe⟩
  · exact ⟨m, none, save, hcode, by rw [tasksOf, hnone]; rfl, fun _ _ => rfl⟩
  · refine ⟨m', some token, save, hcode, ?_, fun x hx => hframe x (by omega)⟩
    rw [tasksOf, htokens]
    exact ⟨token, tail, junk', junk, rfl, hne, htoken, hsave, hzero, Nat.le_trans hbase hle, rfl⟩

/-- **The loop** gives the tokens to the robots in order. -/
theorem parseLoop_spec {left : Nat} {ts : List (List Byte)} {robots : List (Option Robot)}
    (h : Pending m limit base task save ts) (hroom : i + left ≤ robots.length) :
    ∃ m' robots', parseLoop limit left i m task save robots = some (m', robots') ∧
      (∀ k, robots'[k]? = if i ≤ k ∧ k < i + min left ts.length
        then ts[k - i]?.map fun t => some (taskRobot t) else robots[k]?) ∧
      ∀ x, x < base ∨ limit ≤ x → m' x = m x := by
  induction left generalizing i m task save ts robots with
  | zero =>
    refine ⟨m, robots, by rw [parseLoop], fun k => ?_, fun _ _ => rfl⟩
    rw [if_neg (by omega)]
  | succ left ih =>
    cases ts with
    | nil =>
      obtain rfl : task = none := h
      refine ⟨m, robots, by rw [parseLoop], fun k => ?_, fun _ _ => rfl⟩
      rw [if_neg (by simp)]
    | cons t ts =>
      obtain ⟨token, tail, junk, junk', rfl, hne, htoken, hsave, hzero, hbase, rfl⟩ := h
      obtain ⟨c, t, rfl⟩ := exists_cons_of_ne_nil hne
      obtain ⟨hfirst, -⟩ := CString.ptr_head htoken
      -- the character behind the first is in the token or terminates it
      have hnext : ptr m limit (token + 1) = t ++ 0 :: junk := CString.ptr_add (a := [c]) htoken
      have hsecond : m (token + 1) = (c :: t).getD 1 0 ∧ token + 1 < limit := by
        cases t with
        | nil => exact CString.ptr_head hnext
        | cons c' t => exact CString.ptr_head hnext
      have hentry : setEntry robots i (taskRobot (c :: t))
          = some (robots.set i (some (taskRobot (c :: t)))) := if_pos (by omega)
      obtain ⟨m', task, save', hcode, hpending, hframe⟩ := pending_strtokR hsave hzero hbase
      have hroom' : i + 1 + left ≤ (robots.set i (some (taskRobot (c :: t)))).length := by
        rw [length_set]
        omega
      obtain ⟨m'', robots', hloop, hrobots, hframe'⟩ := ih hpending hroom'
      refine ⟨m'', robots', ?_, fun k => ?_, fun x hx => (hframe' x hx).trans (hframe x hx)⟩
      · rw [parseLoop, assert_of hsecond.2]
        simp only [some_bind, hfirst, hsecond.1]
        rw [show startRobot (c.toInt - chr '0') ((c :: t).getD 1 0).toInt = taskRobot (c :: t) from
          rfl, hentry, some_bind, hcode]
        exact hloop
      · rw [hrobots k, length_cons]
        by_cases hik : i = k
        · subst hik
          rw [if_neg (by omega), if_pos (by omega), getElem?_set_self (by omega),
            Nat.sub_self]
          rfl
        · rw [getElem?_set_ne hik]
          by_cases hin : i + 1 ≤ k ∧ k < i + 1 + min left (tasksOf tail).length
          · rw [if_pos hin, if_pos (by omega), show k - i = k - (i + 1) + 1 by omega,
              getElem?_cons_succ]
          · rw [if_neg hin, if_neg (by omega)]

/-- **What `parse_robot_tasks` does**, for any string and number of robots. -/
theorem parseRobotTasks_spec (taskCopy : Nat) {taskString : Extent} {s junk : List Byte}
    {robots : List (Option Robot)} {numRobots : Int}
    (hstring : m.load taskString.start taskString.len = s ++ 0 :: junk) (hs : 0 ∉ s)
    (hroom : numRobots.toNat ≤ robots.length) :
    ∃ m' robots', parseRobotTasks m taskString taskCopy robots numRobots = some (m', robots') ∧
      (∀ k, robots'[k]? = if k < min numRobots.toNat (tasksOf (s.take 255)).length
        then (tasksOf (s.take 255))[k]?.map fun t => some (taskRobot t) else robots[k]?) ∧
      ∀ x, x ∉ (⟨taskCopy, 256⟩ : Extent) → m' x = m x := by
  have hcopy := CString.strlcpy_eq m taskCopy junk hs (show 0 < 256 by decide)
  have hzero : 0 ∉ s.take 255 := fun h => hs (mem_of_mem_take h)
  -- the copy is in the buffer, with whatever was behind it
  obtain ⟨junk', hbuffer⟩ : ∃ junk', ptr (m.store taskCopy (s.take 255 ++ [0])) (taskCopy + 256)
      taskCopy = s.take 255 ++ 0 :: junk' := by
    have hlen : (s.take 255 ++ [0]).length ≤ taskCopy + 256 - taskCopy := by
      rw [length_append, length_take, length_singleton]
      omega
    obtain ⟨k, hk⟩ := Nat.exists_eq_add_of_le hlen
    exact ⟨(m.store taskCopy (s.take 255 ++ [0])).load (taskCopy + (s.take 255 ++ [0]).length) k, by
      rw [ptr, hk, Memory.load_add, Memory.load_store, append_assoc, singleton_append]⟩
  obtain ⟨m', task, save, hcode, hpending, hframe⟩ :=
    pending_strtokR hbuffer hzero (Nat.le_refl taskCopy)
  obtain ⟨m'', robots', hloop, hrobots, hframe'⟩ :=
    parseLoop_spec hpending (show 0 + numRobots.toNat ≤ robots.length by rwa [Nat.zero_add])
  refine ⟨m'', robots', ?_, fun k => ?_, fun x hx => ?_⟩
  · simp only [parseRobotTasks, hstring, hcopy, some_bind, hcode, hloop]
  · rw [hrobots k, Nat.zero_add, Nat.sub_zero]
    simp
  · have hout : x < taskCopy ∨ taskCopy + 256 ≤ x := by
      rw [Extent.mem_iff] at hx
      simp only at hx
      omega
    rw [hframe' x hout, hframe x hout]
    refine Memory.store_of_notMem ?_
    rw [Extent.mem_iff, length_append, length_take, length_singleton]
    simp only
    omega

end Parse

/-! ## Renderings -/

/-- Tasks written out, each followed by some colons, behind some leading colons. -/
def render (lead : Nat) (tasks : List ((Byte × Byte) × Nat)) : List Byte :=
  List.replicate lead (ch ':') ++
    tasks.flatMap fun x => [x.1.1, x.1.2] ++ List.replicate x.2 (ch ':')

/-- Neither a colon nor a terminator. -/
def TaskChar (c : Byte) : Prop :=
  c ≠ ch ':' ∧ c ≠ 0

instance (c : Byte) : Decidable (TaskChar c) :=
  inferInstanceAs (Decidable (_ ∧ _))

section Render
variable {lead : Nat} {tasks : List ((Byte × Byte) × Nat)}

/-- **The tokens of a rendering are its tasks.** -/
theorem tasksOf_render (hsep : ∀ x ∈ tasks.dropLast, 0 < x.2)
    (hchars : ∀ x ∈ tasks, TaskChar x.1.1 ∧ TaskChar x.1.2) :
    tasksOf (render lead tasks) = tasks.map fun x => [x.1.1, x.1.2] := by
  rw [tasksOf, render, CString.tokens_replicate_append]
  induction tasks with
  | nil => exact CString.tokens_nil
  | cons x tasks ih =>
    obtain ⟨hitem, hdest⟩ := hchars x mem_cons_self
    have hnot : ch ':' ∉ [x.1.1, x.1.2] := by
      simp [Ne.symm hitem.1, Ne.symm hdest.1]
    rw [flatMap_cons, map_cons]
    cases hpad : x.2 with
    | zero =>
      cases tasks with
      | nil =>
        rw [replicate_zero, append_nil, flatMap_nil, append_nil,
          CString.tokens_of_notMem hnot (by simp)]
        rfl
      | cons y tasks =>
        have := hsep x (by simp)
        omega
    | succ k =>
      have hassoc : ∀ rest, [x.1.1, x.1.2] ++ List.replicate (k + 1) (ch ':') ++ rest
          = [x.1.1, x.1.2] ++ ch ':' :: (List.replicate k (ch ':') ++ rest) := fun rest => rfl
      rw [hassoc, CString.tokens_append_cons hnot (by simp), CString.tokens_replicate_append,
        ih (fun y hy => ?_) fun y hy => hchars y (mem_cons_of_mem x hy)]
      refine hsep y ?_
      cases tasks with
      | nil => exact absurd hy not_mem_nil
      | cons z tasks => exact mem_cons_of_mem x hy

theorem zero_notMem_render (hchars : ∀ x ∈ tasks, TaskChar x.1.1 ∧ TaskChar x.1.2) :
    0 ∉ render lead tasks := by
  have hcolon : (0 : Byte) ≠ ch ':' := by decide
  intro h
  rcases mem_append.mp h with h | h
  · exact hcolon (eq_of_mem_replicate h)
  · obtain ⟨x, hx, h⟩ := mem_flatMap.mp h
    obtain ⟨hitem, hdest⟩ := hchars x hx
    rcases mem_append.mp h with h | h
    · rw [mem_pair] at h
      exact h.elim (fun h => hitem.2 h.symm) fun h => hdest.2 h.symm
    · exact hcolon (eq_of_mem_replicate h)

/-- **Task strings round-trip.**  The robots get the tasks of a rendering in order, on `W`
with nothing loaded and nothing done; the number of the item is stored as a `char`, the
payload as an `int`.  Nothing else in the array of robots changes, nor does the string. -/
theorem parseRobotTasks_render {m : Memory} {taskString : Extent} {taskCopy : Nat}
    {junk : List Byte} {robots : List (Option Robot)} (hsep : ∀ x ∈ tasks.dropLast, 0 < x.2)
    (hchars : ∀ x ∈ tasks, TaskChar x.1.1 ∧ TaskChar x.1.2)
    (hlen : (render lead tasks).length ≤ 255)
    (hstring : m.load taskString.start taskString.len = render lead tasks ++ 0 :: junk)
    (hapart : taskString.Apart ⟨taskCopy, 256⟩) (hroom : tasks.length ≤ robots.length) :
    ∃ m' robots', parseRobotTasks m taskString taskCopy robots tasks.length = some (m', robots') ∧
      (∀ (k : Nat) (item destination : Byte) (pad : Nat), tasks[k]? = some ((item, destination), pad) →
        ∃ r : Robot, robots'[k]? = some (some r) ∧ r.requiredPayload = item.toInt - chr '0' ∧
          r.requiredItem = toChar (item.toInt - chr '0') ∧ r.destination = destination.toInt ∧
          r.pos = (rowW, colW) ∧ r.currentPayload = 0 ∧ r.taskCompleted = false) ∧
      (∀ k : Nat, tasks.length ≤ k → robots'[k]? = robots[k]?) ∧
      m'.load taskString.start taskString.len = m.load taskString.start taskString.len := by
  obtain ⟨m', robots', hcode, hrobots, hframe⟩ := parseRobotTasks_spec taskCopy hstring
    (zero_notMem_render hchars) (show (tasks.length : Int).toNat ≤ robots.length by simpa using hroom)
  rw [List.take_of_length_le hlen, tasksOf_render hsep hchars] at hrobots
  refine ⟨m', robots', hcode, fun k item destination pad hk => ?_, fun k hk => ?_, ?_⟩
  · have hlt : k < tasks.length := (List.getElem?_eq_some_iff.mp hk).1
    have hentry := hrobots k
    rw [if_pos (by simpa using hlt), List.getElem?_map, hk] at hentry
    exact ⟨taskRobot [item, destination], hentry, rfl, rfl, rfl, rfl, rfl, rfl⟩
  · have hentry := hrobots k
    rwa [if_neg (by simpa using hk)] at hentry
  · refine Memory.load_congr fun k hk => hframe _ (hapart _ ?_)
    exact ⟨Nat.le_add_right _ k, Nat.add_lt_add_left hk _⟩

/-- The tasks of two robots, with more colons than needed. -/
theorem parseRobotTasks_render_two :
    let tasks : List ((Byte × Byte) × Nat) := [((ch '3', ch 'A'), 2), ((ch '7', ch 'C'), 1)]
    let m : Memory := Memory.store (fun _ => 255) 5000 (render 1 tasks ++ [0])
    ∃ m' robots', parseRobotTasks m ⟨5000, 9⟩ 6000 [none, none, none] 2 = some (m', robots') ∧
      (∀ k, 2 ≤ k → robots'[k]? = [none, none, none][k]?) ∧ m'.load 5000 9 = m.load 5000 9 := by
  intro tasks m
  obtain ⟨m', robots', hcode, -, hrest, hstring⟩ :=
    @parseRobotTasks_render 1 tasks m ⟨5000, 9⟩ 6000 [] [none, none, none] (by decide) (by decide)
      (by decide) (by decide +kernel) (by decide) (by decide)
  exact ⟨m', robots', hcode, hrest, hstring⟩

/-- **A number that does not fit in a `char`.**  The item `\x80` has the value -128; less
`'0'` that is -176, and the `char` that is stored is 80. -/
theorem parseRobotTasks_narrows :
    let tasks : List ((Byte × Byte) × Nat) := [((0x80, ch 'A'), 0)]
    let m : Memory := Memory.store (fun _ => 255) 5000 (render 0 tasks ++ [0])
    ∃ m' r, parseRobotTasks m ⟨5000, 3⟩ 6000 [none] 1 = some (m', [some r]) ∧
      r.requiredPayload = (0x80 : Byte).toInt - chr '0' ∧ r.requiredItem = 80 ∧
      r.requiredItem ≠ (0x80 : Byte).toInt - chr '0' := by
  intro tasks m
  have hcode : (parseRobotTasks m ⟨5000, 3⟩ 6000 [none] 1).map Prod.snd
      = some [some (startRobot (-176) 65)] := by
    decide +kernel
  obtain ⟨⟨m', robots'⟩, hrun, rfl⟩ := Option.map_eq_some_iff.mp hcode
  exact ⟨m', _, hrun, by decide, by decide, by decide⟩

end Render
end Pintos.Warehouse
