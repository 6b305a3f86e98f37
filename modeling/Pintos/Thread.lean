import Mathlib.Logic.Function.Basic
import Pintos.Semaphore

/-!
# Threads

`threads/thread.c`, with the callers of `thread_block` and `thread_unblock` in
`threads/synch.c`, `devices/timer.c` and the warehouse's `aw_thread.c`.

A thread is on at most one list at a time, through the one list element it has: on
`ready_list`, among the waiters of a semaphore, on `sleep_list` or on
`blocked_threads`.  The functions below keep these lists.  Each is what the code does
with interrupts off, and returns `none` where an assertion of the code fails.

A context switch is part of the step in which a thread gives up the processor:
`schedule` is begun by the thread that gives up the processor and completed, in
`thread_schedule_tail`, by the thread it has switched to.

The kernel is looked at from the return of `thread_start` on, when the idle thread is
known and the initial thread is running.  From there on threads may take any steps, as
long as a thread does not exit in the middle of a `thread_create`; the idle thread only
blocks; timer interrupts and `sema_up`s from interrupt handlers may come at any time.

`all_list`, the priorities and the statistics play no part in this and are left out.
Ticks are `int64_t`s in the code and integers here.
-/

namespace Pintos
open Function (update)

/-- `INT64_MAX`. -/
def int64Max : Int := 9223372036854775807

/-- `TIME_SLICE`. -/
def timeSlice : Nat := 4

/-- `enum thread_status`. -/
inductive ThreadStatus where
  | running
  | ready
  | blocked
  | dying
  deriving DecidableEq

/-- `idle_thread` and `initial_thread`, once `thread_start` has returned. -/
structure Boot (T : Type) where
  idle : T
  initial : T
  initial_ne_idle : initial ≠ idle

/-- **The kernel's threads.**  The status is `none` for what is not a thread yet.
`creating` is the thread each thread is constructing in `thread_create`, and
`timerSleeping` the tick each thread has computed in `timer_sleep` and not yet passed
to `thread_sleep`.  `freed` lists the threads whose page has been freed and `unblocks`
counts the calls of `thread_unblock` for each thread; the code has no counterpart of
these two. -/
structure Kernel (T S : Type) where
  status : T → Option ThreadStatus
  runningThread : T
  readyList : List T
  sleepList : List T
  nextTickToWakeup : Int
  wakeupTick : T → Int
  ticks : Int
  threadTicks : Nat
  blockedThreads : List T
  semaphores : S → Semaphore T
  creating : T → Option T
  timerSleeping : T → Option Int
  freed : List T
  unblocks : T → Nat

namespace Kernel
variable {T S : Type} [DecidableEq T] (B : Boot T)

/-- `is_thread`: the page still holds a thread. -/
def IsThread (k : Kernel T S) (t : T) : Prop :=
  k.status t ≠ none ∧ t ∉ k.freed

instance (k : Kernel T S) (t : T) : Decidable (k.IsThread t) :=
  inferInstanceAs (Decidable (_ ∧ _))

/-- `thread_current`. -/
def threadCurrent (k : Kernel T S) : Option T := do
  assert (k.IsThread k.runningThread)
  assert (k.status k.runningThread = some .running)
  return k.runningThread

theorem threadCurrent_eq {k : Kernel T S} (hthread : k.IsThread k.runningThread)
    (hrunning : k.status k.runningThread = some .running) :
    k.threadCurrent = some k.runningThread := by
  simp [threadCurrent, hthread, hrunning]

def setStatus (k : Kernel T S) (t : T) (status : ThreadStatus) : Kernel T S :=
  { k with status := update k.status t (some status) }

/-! ## Switching threads -/

/-- `next_thread_to_run`. -/
def nextThreadToRun (k : Kernel T S) : T × Kernel T S :=
  match k.readyList with
  | [] => (B.idle, k)
  | t :: rest => (t, { k with readyList := rest })

/-- `thread_schedule_tail`, by the thread that is running now. -/
def threadScheduleTail (k : Kernel T S) (prev : Option T) : Option (Kernel T S) :=
  let cur := k.runningThread
  let k := { k.setStatus cur .running with threadTicks := 0 }
  match prev with
  | none => some k
  | some prev =>
    if k.status prev = some .dying ∧ prev ≠ B.initial then do
      assert (prev ≠ cur)
      return { k with freed := k.freed ++ [prev] }
    else
      some k

/-- `schedule`. -/
def schedule (k : Kernel T S) : Option (Kernel T S) := do
  let cur := k.runningThread
  let (next, k) := k.nextThreadToRun B
  assert (k.status cur ≠ some .running)
  assert (k.IsThread next)
  if cur = next then
    k.threadScheduleTail B none
  else
    let k := { k with runningThread := next }
    k.threadScheduleTail B (some cur)

/-- `thread_block`. -/
def threadBlock (k : Kernel T S) : Option (Kernel T S) := do
  let cur ← k.threadCurrent
  (k.setStatus cur .blocked).schedule B

def makeReady (k : Kernel T S) (t : T) : Kernel T S :=
  { k.setStatus t .ready with
    readyList := k.readyList ++ [t]
    unblocks := update k.unblocks t (k.unblocks t + 1) }

/-- `thread_unblock`. -/
def threadUnblock (k : Kernel T S) (t : T) : Option (Kernel T S) := do
  assert (k.IsThread t)
  assert (k.status t = some .blocked)
  return k.makeReady t

theorem threadUnblock_eq {k : Kernel T S} {t : T} (hthread : k.IsThread t)
    (hblocked : k.status t = some .blocked) : k.threadUnblock t = some (k.makeReady t) := by
  simp [threadUnblock, hthread, hblocked]

/-- `thread_yield`. -/
def threadYield (k : Kernel T S) : Option (Kernel T S) := do
  let cur ← k.threadCurrent
  let k := if cur = B.idle then k else { k with readyList := k.readyList ++ [cur] }
  (k.setStatus cur .ready).schedule B

/-- `thread_exit`. -/
def threadExit (k : Kernel T S) : Option (Kernel T S) := do
  let cur ← k.threadCurrent
  (k.setStatus cur .dying).schedule B

/-! ## `thread_create` -/

/-- `thread_create` up to `init_thread`, for the new thread `t`. -/
def threadCreate (k : Kernel T S) (t : T) : Option (Kernel T S) := do
  let cur ← k.threadCurrent
  return { k.setStatus t .blocked with creating := update k.creating cur (some t) }

/-- The end of `thread_create`: the new thread is unblocked.  In between
`allocate_tid` takes a lock, so that the creator may have to wait. -/
def threadCreateEnd (k : Kernel T S) : Option (Kernel T S) := do
  let cur ← k.threadCurrent
  let t ← k.creating cur
  let k := { k with creating := update k.creating cur none }
  k.threadUnblock t

/-! ## Sleeping -/

/-- `update_next_tick_to_wakeup`. -/
def updateNextTickToWakeup (k : Kernel T S) (tick : Int) : Kernel T S :=
  { k with
    nextTickToWakeup := if k.nextTickToWakeup > tick then tick else k.nextTickToWakeup }

/-- `thread_sleep`. -/
def threadSleep (k : Kernel T S) (tick : Int) : Option (Kernel T S) := do
  let cur ← k.threadCurrent
  assert (cur ≠ B.idle)
  let k := { k with wakeupTick := update k.wakeupTick cur tick }.updateNextTickToWakeup tick
  let k := { k with sleepList := k.sleepList ++ [cur] }
  k.threadBlock B

/-- The loop of `thread_wakeup`, from the given elements of `sleep_list` on. -/
def wakeupLoop (currentTick : Int) : List T → Kernel T S → Option (Kernel T S)
  | [], k => some k
  | t :: rest, k =>
    if currentTick ≥ k.wakeupTick t then do
      let k ← { k with sleepList := k.sleepList.erase t }.threadUnblock t
      wakeupLoop currentTick rest k
    else
      wakeupLoop currentTick rest (k.updateNextTickToWakeup (k.wakeupTick t))

/-- `thread_wakeup`. -/
def threadWakeup (k : Kernel T S) (currentTick : Int) : Option (Kernel T S) :=
  wakeupLoop currentTick k.sleepList { k with nextTickToWakeup := int64Max }

/-- `timer_sleep` up to the call of `thread_sleep`, in which interrupts are on. -/
def timerSleep (k : Kernel T S) (ticks : Int) : Option (Kernel T S) := do
  let cur ← k.threadCurrent
  let start := k.ticks
  return { k with timerSleeping := update k.timerSleeping cur (some (start + ticks)) }

/-- The call of `thread_sleep` in `timer_sleep`. -/
def timerSleepEnd (k : Kernel T S) : Option (Kernel T S) := do
  let cur ← k.threadCurrent
  let tick ← k.timerSleeping cur
  let k := { k with timerSleeping := update k.timerSleeping cur none }
  k.threadSleep B tick

/-- `thread_tick`; the second component is whether the thread has to yield when the
interrupt returns. -/
def threadTick (k : Kernel T S) : Option (Kernel T S × Bool) := do
  let _ ← k.threadCurrent
  return ({ k with threadTicks := k.threadTicks + 1 }, decide (timeSlice ≤ k.threadTicks + 1))

/-- The check in `timer_interrupt` whether threads are to be woken up. -/
def wakeupDue (k : Kernel T S) : Option (Kernel T S) :=
  if k.nextTickToWakeup ≤ k.ticks then k.threadWakeup k.ticks else some k

/-- `timer_interrupt`, and the `thread_yield` of `intr_handler` on its return. -/
def timerInterrupt (k : Kernel T S) : Option (Kernel T S) := do
  let (k, yieldOnReturn) ← { k with ticks := k.ticks + 1 }.threadTick
  let k ← k.wakeupDue
  if yieldOnReturn then k.threadYield B else some k

/-! ## Semaphores -/

section Semaphores
variable [DecidableEq S]

def setSemaphore (k : Kernel T S) (s : S) (sema : Semaphore T) : Kernel T S :=
  { k with semaphores := update k.semaphores s sema }

/-- One test of the loop of `sema_down`.  A thread that has been woken does it again. -/
def semaDown (k : Kernel T S) (s : S) : Option (Kernel T S) :=
  let (sema, success) := (k.semaphores s).down k.runningThread
  let k := k.setSemaphore s sema
  if success then some k else k.threadBlock B

/-- `sema_try_down`. -/
def semaTryDown (k : Kernel T S) (s : S) : Option (Kernel T S) :=
  some (k.setSemaphore s (k.semaphores s).tryDown.1)

/-- `sema_up`. -/
def semaUp (k : Kernel T S) (s : S) : Option (Kernel T S) :=
  let (sema, woken) := (k.semaphores s).up
  let k := k.setSemaphore s sema
  match woken with
  | none => some k
  | some t => k.threadUnblock t

end Semaphores

/-! ## `aw_thread.c` -/

/-- `block_thread`. -/
def blockThread (k : Kernel T S) : Option (Kernel T S) := do
  let cur ← k.threadCurrent
  let k := { k with blockedThreads := k.blockedThreads ++ [cur] }
  k.threadBlock B

/-- The loop of `unblock_threads`, while the given threads are left. -/
def unblockLoop : List T → Kernel T S → Option (Kernel T S)
  | [], k => some k
  | t :: rest, k => do
    let k ← { k with blockedThreads := rest }.threadUnblock t
    unblockLoop rest k

/-- `unblock_threads`. -/
def unblockThreads (k : Kernel T S) : Option (Kernel T S) :=
  unblockLoop k.blockedThreads k

end Kernel

/-! ## Steps -/

/-- The interrupts-off sections. -/
inductive KernelEvent (T S : Type) where
  | threadCreate (t : T)
  | threadCreateEnd
  | threadYield
  | threadExit
  | threadSleep (tick : Int)
  | timerSleep (ticks : Int)
  | timerSleepEnd
  | semaDown (s : S)
  | semaTryDown (s : S)
  | semaUp (s : S)
  | blockThread
  | unblockThreads
  | timerInterrupt
  /-- The `thread_block` in the loop of the idle thread. -/
  | idleBlock
  deriving DecidableEq

namespace Kernel
variable {T S : Type} [DecidableEq T] [DecidableEq S] (B : Boot T)

/-- When a step may be taken: the idle thread only blocks, and is interrupted; a new
thread is a new one; a thread in the middle of `thread_create` neither exits nor begins
another one. -/
def Enabled (k : Kernel T S) : KernelEvent T S → Prop
  | .threadCreate t =>
    k.runningThread ≠ B.idle ∧ k.status t = none ∧ k.creating k.runningThread = none
  | .threadCreateEnd => k.creating k.runningThread ≠ none
  | .threadExit => k.runningThread ≠ B.idle ∧ k.creating k.runningThread = none
  | .timerSleepEnd => k.runningThread ≠ B.idle ∧ k.timerSleeping k.runningThread ≠ none
  | .threadSleep _ | .timerSleep _ | .semaDown _ | .blockThread => k.runningThread ≠ B.idle
  | .idleBlock => k.runningThread = B.idle
  | .threadYield | .semaTryDown _ | .semaUp _ | .unblockThreads | .timerInterrupt => True

instance (k : Kernel T S) : ∀ e, Decidable (k.Enabled B e)
  | .threadCreate _ => inferInstanceAs (Decidable (_ ∧ _ ∧ _))
  | .threadCreateEnd | .threadSleep _ | .timerSleep _ | .semaDown _ | .blockThread =>
    inferInstanceAs (Decidable (_ ≠ _))
  | .threadExit | .timerSleepEnd => inferInstanceAs (Decidable (_ ∧ _))
  | .idleBlock => inferInstanceAs (Decidable (_ = _))
  | .threadYield | .semaTryDown _ | .semaUp _ | .unblockThreads | .timerInterrupt =>
    inferInstanceAs (Decidable True)

def apply (k : Kernel T S) : KernelEvent T S → Option (Kernel T S)
  | .threadCreate t => k.threadCreate t
  | .threadCreateEnd => k.threadCreateEnd
  | .threadYield => k.threadYield B
  | .threadExit => k.threadExit B
  | .threadSleep tick => k.threadSleep B tick
  | .timerSleep ticks => k.timerSleep ticks
  | .timerSleepEnd => k.timerSleepEnd B
  | .semaDown s => k.semaDown B s
  | .semaTryDown s => k.semaTryDown s
  | .semaUp s => k.semaUp s
  | .blockThread => k.blockThread B
  | .unblockThreads => k.unblockThreads
  | .timerInterrupt => k.timerInterrupt B
  | .idleBlock => k.threadBlock B

/-- **When `thread_start` returns**, the initial thread is running and the idle thread
has blocked, or has been preempted just before it does. -/
structure IsStart (k : Kernel T S) : Prop where
  running : k.runningThread = B.initial
  status : ∃ idle, (idle = .blocked ∨ idle = .ready) ∧
    k.status = update (update (fun _ => none) B.idle (some idle)) B.initial (some .running)
  readyList : k.readyList = []
  sleepList : k.sleepList = []
  nextTickToWakeup : k.nextTickToWakeup = int64Max
  blockedThreads : k.blockedThreads = []
  waiters : ∀ s, (k.semaphores s).waiters = []
  creating : ∀ t, k.creating t = none
  timerSleeping : ∀ t, k.timerSleeping t = none
  freed : k.freed = []

/-- Such a state, before the first tick and with all semaphores at 0. -/
def start : Kernel T S where
  status := update (update (fun _ => none) B.idle (some .blocked)) B.initial (some .running)
  runningThread := B.initial
  readyList := []
  sleepList := []
  nextTickToWakeup := int64Max
  wakeupTick _ := 0
  ticks := 0
  threadTicks := 0
  blockedThreads := []
  semaphores _ := .init 0
  creating _ := none
  timerSleeping _ := none
  freed := []
  unblocks _ := 0

omit [DecidableEq S] in
theorem isStart_start : (start B : Kernel T S).IsStart B :=
  ⟨rfl, ⟨.blocked, Or.inl rfl, rfl⟩, rfl, rfl, rfl, rfl, fun _ => rfl, fun _ => rfl, fun _ => rfl,
    rfl⟩

/-- The runs of the kernel after `thread_start`. -/
def system : TransitionSystem (Kernel T S) (KernelEvent T S) :=
  .checked (IsStart B) (Enabled B) (apply B)

end Kernel
end Pintos
