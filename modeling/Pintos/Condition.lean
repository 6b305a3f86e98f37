import Pintos.Lock

/-!
# Condition variables

`threads/synch.c`.  `cond_wait` queues a semaphore of its own, with the value 0, releases
the lock, downs that semaphore, and acquires the lock again.  `cond_signal` takes the
first semaphore from the queue and ups it; `cond_broadcast` calls `cond_signal` until the
queue is empty.

The four parts of `cond_wait` are separate steps, the lock's own steps among them
(`Locking`), and so are the parts of `cond_signal`: the call with its assertion, the test
and the removal from the queue, the `sema_up`.  Any thread may take the next step, so a
signal can fall between any two parts of a wait.  Only the queue is not protected by
anything but the lock, and everybody who touches it holds the lock (`Inv.lockPc`).

**No signal is lost** (`no_signal_lost`): a signal that is issued while threads wait that
have not been signalled chooses the one of them that entered first, and that thread is
able to return from then on, also if it has not reached its `sema_down` yet; nobody
returns without having been chosen by exactly one signal.
-/

namespace Pintos
open Function (update update_of_ne update_self forall_update_iff)

/-- Where a thread is in its use of the condition. -/
inductive CondPc (T : Type) where
  | outside
  /-- In `cond_wait`, about to queue its semaphore. -/
  | enqueuing
  /-- In the `lock_release` of `cond_wait`. -/
  | releasing
  /-- About to call `sema_down` on its semaphore. -/
  | waiting
  /-- In that `sema_down`, queued or unblocked. -/
  | downing
  /-- In the `lock_acquire` of `cond_wait`. -/
  | reacquiring
  /-- In `cond_broadcast`, about to test the condition of its loop. -/
  | broadcasting
  /-- In `cond_signal`, about to look at the queue; `broadcast` if `cond_broadcast` called
  it. -/
  | signalling (broadcast : Bool)
  /-- In `cond_signal`, about to up the semaphore of `w`. -/
  | upping (w : T) (broadcast : Bool)
  deriving DecidableEq

namespace CondPc
variable {T : Type}

/-- The thread has queued its semaphore and not downed it. -/
def queued : CondPc T → Bool
  | .releasing | .waiting | .downing => true
  | .outside | .enqueuing | .reacquiring | .broadcasting | .signalling _ | .upping _ _ => false

/-- The thread is in a part of the condition's functions that needs the lock. -/
def critical : CondPc T → Bool
  | .enqueuing | .broadcasting | .signalling _ | .upping _ _ => true
  | .outside | .releasing | .waiting | .downing | .reacquiring => false

def isSignalling : CondPc T → Bool
  | .signalling _ => true
  | _ => false

def isUpping : CondPc T → Bool
  | .upping _ _ => true
  | _ => false

/-- Where `cond_signal` returns to. -/
def afterSignal (broadcast : Bool) : CondPc T :=
  if broadcast then .broadcasting else .outside

/-- Where the thread can be in its use of the lock meanwhile. -/
def LockOk : CondPc T → LockPc → Prop
  | .outside, _ => True
  | .enqueuing, l | .broadcasting, l | .signalling _, l | .upping _ _, l => l = .holding
  | .releasing, l => l = .holding ∨ l = .releasing ∨ l = .upping
  | .waiting, l | .downing, l => l = .outside
  | .reacquiring, l => l = .outside ∨ l = .acquiring ∨ l = .downing ∨ l = .taken

/-- It is no part of a wait. -/
theorem afterSignal_spec (b : Bool) : (afterSignal b : CondPc T).queued = false ∧
    (afterSignal b : CondPc T).isUpping = false ∧ (afterSignal b : CondPc T) ≠ .reacquiring ∧
      (afterSignal b : CondPc T).LockOk .holding := by
  cases b <;> simp [afterSignal, queued, isUpping, LockOk]

variable {p : CondPc T}

theorem LockOk.holding {l : LockPc} (h : p.LockOk l) (hp : p.critical = true) :
    l = .holding := by
  cases p <;> first | exact h | cases hp

theorem LockOk.acquire {l : LockPc} (h : p.LockOk l)
    (hl : l = .acquiring ∨ l = .downing ∨ l = .taken) : p = .outside ∨ p = .reacquiring := by
  rcases hl with rfl | rfl | rfl <;> cases p <;> first | (simp [LockOk] at h; done) | simp

theorem LockOk.release {l : LockPc} (h : p.LockOk l) (hl : l = .releasing ∨ l = .upping) :
    p = .outside ∨ p = .releasing := by
  rcases hl with rfl | rfl <;> cases p <;> first | (simp [LockOk] at h; done) | simp

theorem LockOk.tryAcquire (h : p.LockOk .tryAcquiring) : p = .outside := by
  cases p <;> first | rfl | simp [LockOk] at h

/-- What the thread's own semaphore looks like meanwhile. -/
def SemaphoreOk (t : T) : CondPc T → Semaphore.Usage T → Prop
  | .releasing, u | .waiting, u => u.sema.waiters = [] ∧ u.woken = [] ∧ u.sema.value ≤ 1
  | .downing, u => u.sema = ⟨0, [t]⟩ ∧ u.woken = [] ∨ u.sema = ⟨1, []⟩ ∧ u.woken = [t]
  | _, _ => True

section
variable {t : T} {u : Semaphore.Usage T} (h : p.SemaphoreOk t u) (hp : p.queued = true)
include h hp

theorem SemaphoreOk.notMem (hpos : 0 < u.sema.value) : t ∉ u.sema.waiters := by
  cases p with
  | releasing | waiting =>
    rw [h.1]
    exact nofun
  | downing =>
    rcases h with ⟨hsema, -⟩ | ⟨hsema, -⟩
    · rw [hsema] at hpos
      exact absurd hpos (Nat.lt_irrefl 0)
    · rw [hsema]
      exact nofun
  | _ => cases hp

/-- The first `sema_up` unblocks the thread, if it has come to block. -/
theorem SemaphoreOk.up [DecidableEq T] (hzero : u.sema.value = 0) :
    p.SemaphoreOk t (u.apply .up) ∧ (u.apply .up).sema.value = 1 := by
  have hvalue : (u.apply .up).sema.value = 1 := by
    simp only [Semaphore.Usage.apply, Semaphore.up_value, hzero]
    rfl
  refine ⟨?_, hvalue⟩
  cases p with
  | releasing | waiting =>
    obtain ⟨hqueue, hwoken, -⟩ := h
    have hup : u.sema.up.2 = none ∧ u.sema.up.1.waiters = [] := by simp [Semaphore.up, hqueue]
    exact ⟨hup.2, by simp [Semaphore.Usage.apply, hwoken, hup.1], Nat.le_of_eq hvalue⟩
  | downing =>
    rcases h with ⟨hsema, hwoken⟩ | ⟨hsema, -⟩
    · refine .inr ⟨?_, ?_⟩
      · simp [Semaphore.Usage.apply, hsema, Semaphore.up, unsignedSize]
      · simp [Semaphore.Usage.apply, hsema, Semaphore.up, hwoken]
    · rw [hsema] at hzero
      cases hzero
  | _ => cases hp

end

end CondPc

/-- **Threads using a condition and its lock.**  `waiters` is the queue in
`struct condition`, in which a semaphore stands for its thread; `semaphore t` is the one in
the `cond_wait` of `t`.

The code has no counterpart of the rest: `entries` counts the waits that were queued,
`ticket t` is the number of the last one of `t`, `chosen t` says how many signals have
chosen it, and `seen t` is what the queue was when `t` last called `cond_signal` or
`cond_broadcast`. -/
structure Monitor (T : Type) where
  lock : Locking T
  waiters : List T
  semaphore : T → Semaphore.Usage T
  pc : T → CondPc T
  entries : Nat
  ticket : T → Nat
  chosen : T → Nat
  seen : T → List T

inductive CondEvent (T : Type) where
  /-- A step of the lock. -/
  | lock (e : LockEvent T)
  | callWait (t : T)
  /-- `sema_init` and `list_push_back`. -/
  | enqueue (t : T)
  | semaDown (t : T)
  | retry (t : T)
  | callSignal (t : T)
  | callBroadcast (t : T)
  /-- The test of `cond_broadcast`'s loop, and if it goes on, the call of `cond_signal`. -/
  | test (t : T)
  /-- The test of `cond_signal`, and if the queue is not empty, `list_pop_front`. -/
  | pop (t : T)
  | semaUp (t : T)
  deriving DecidableEq

/-- The thread whose step it is. -/
def LockEvent.thread {T : Type} : LockEvent T → T
  | .callAcquire t | .semaDown t | .retry t | .callTryAcquire t | .semaTryDown t | .setHolder t
  | .callRelease t | .clearHolder t | .semaUp t => t

def CondEvent.thread {T : Type} : CondEvent T → T
  | .lock e => e.thread
  | .callWait t | .enqueue t | .semaDown t | .retry t | .callSignal t | .callBroadcast t | .test t
  | .pop t | .semaUp t => t

namespace Monitor
variable {T : Type}

/-- `cond_init` and `lock_init`. -/
def start : Monitor T where
  lock := .start
  waiters := []
  semaphore _ := .start 0
  pc _ := .outside
  entries := 0
  ticket _ := 0
  chosen _ := 0
  seen _ := []

section Functions
variable [DecidableEq T]

def goto (s : Monitor T) (t : T) (p : CondPc T) : Monitor T :=
  { s with pc := update s.pc t p }

/-- A call of `cond_signal` or `cond_broadcast` begins. -/
def called (s : Monitor T) (t : T) (p : CondPc T) : Monitor T :=
  { s with seen := update s.seen t s.waiters, pc := update s.pc t p }

/-- `cond_wait` goes on when `lock_release` or `lock_acquire` returns. -/
def afterLock (s : Monitor T) : LockEvent T → T → CondPc T
  | .semaUp t => if s.pc t = .releasing then update s.pc t .waiting else s.pc
  | .setHolder t => if s.pc t = .reacquiring then update s.pc t .outside else s.pc
  | _ => s.pc

/-- `sema_init (&waiter.semaphore, 0); list_push_back (&cond->waiters, &waiter.elem)`. -/
def enqueued (s : Monitor T) (t : T) : Monitor T :=
  { s with
    waiters := s.waiters ++ [t]
    semaphore := update s.semaphore t (.start 0)
    pc := update s.pc t .releasing
    entries := s.entries + 1
    ticket := update s.ticket t s.entries
    chosen := update s.chosen t 0 }

/-- A test of `sema_down`'s loop. -/
def tested (s : Monitor T) (t : T) (e : Semaphore.Event T) : Monitor T :=
  { s with
    semaphore := update s.semaphore t ((s.semaphore t).apply e)
    pc := update s.pc t (if ((s.semaphore t).sema.down t).2 then .reacquiring else .downing) }

/-- The part of `cond_signal` that touches the queue. -/
def popped (s : Monitor T) (t : T) (broadcast : Bool) : Monitor T :=
  match s.waiters with
  | [] => s.goto t (.afterSignal broadcast)
  | w :: rest =>
    { s with
      waiters := rest
      pc := update s.pc t (.upping w broadcast)
      chosen := update s.chosen w (s.chosen w + 1) }

def upped (s : Monitor T) (t w : T) (broadcast : Bool) : Monitor T :=
  { s with
    semaphore := update s.semaphore w ((s.semaphore w).apply .up)
    pc := update s.pc t (.afterSignal broadcast) }

def apply (s : Monitor T) : CondEvent T → Option (Monitor T)
  | .lock e => some { s with lock := s.lock.apply e, pc := s.afterLock e }
  | .callWait t => do
    assert (s.lock.heldByCurrentThread t = true)
    some (s.goto t .enqueuing)
  | .enqueue t => some (s.enqueued t)
  | .semaDown t => some (s.tested t (.down t))
  | .retry t => some (s.tested t (.retry t))
  | .callSignal t => do
    assert (s.lock.heldByCurrentThread t = true)
    some (s.called t (.signalling false))
  | .callBroadcast t => some (s.called t .broadcasting)
  | .test t =>
    if s.waiters = [] then some (s.goto t .outside)
    else do
      assert (s.lock.heldByCurrentThread t = true)
      some (s.goto t (.signalling true))
  | .pop t =>
    match s.pc t with
    | .signalling broadcast => some (s.popped t broadcast)
    | _ => none
  | .semaUp t =>
    match s.pc t with
    | .upping w broadcast => some (s.upped t w broadcast)
    | _ => none

end Functions

/-- The lock can be used outside of the condition's functions, and by `cond_wait` in its
turn; in the middle of one of its functions the lock goes on anyhow. -/
def Permits (s : Monitor T) : LockEvent T → Prop
  | .callAcquire t => s.pc t = .outside ∨ s.pc t = .reacquiring
  | .callTryAcquire t => s.pc t = .outside
  | .callRelease t => s.pc t = .outside ∨ s.pc t = .releasing
  | .semaDown _ | .retry _ | .semaTryDown _ | .setHolder _ | .clearHolder _ | .semaUp _ => True

/-- When a step can be taken.  The functions are called with the lock held. -/
def Enabled (s : Monitor T) : CondEvent T → Prop
  | .lock e => s.lock.Enabled e ∧ s.Permits e
  | .callWait t | .callSignal t | .callBroadcast t => s.pc t = .outside ∧ s.lock.pc t = .holding
  | .enqueue t => s.pc t = .enqueuing
  | .semaDown t => s.pc t = .waiting
  | .retry t => s.pc t = .downing ∧ t ∈ (s.semaphore t).woken
  | .test t => s.pc t = .broadcasting
  | .pop t => (s.pc t).isSignalling = true
  | .semaUp t => (s.pc t).isUpping = true

instance [DecidableEq T] (s : Monitor T) (e : LockEvent T) : Decidable (s.Permits e) := by
  cases e <;> unfold Permits <;> infer_instance

instance [DecidableEq T] (s : Monitor T) (e : CondEvent T) : Decidable (s.Enabled e) := by
  cases e <;> unfold Enabled <;> infer_instance

/-- Any threads using one condition and its lock. -/
def system [DecidableEq T] : TransitionSystem (Monitor T) (CondEvent T) :=
  .checked (· = start) Enabled apply

/-! ## The invariant -/

/-- The thread has entered `cond_wait`, and no signal has chosen it. -/
def Unsignalled (s : Monitor T) (t : T) : Prop :=
  (s.pc t).queued = true ∧ s.chosen t = 0

/-- **The thread is able to return**: it waits for the lock only, or its semaphore has
been upped and it is not blocked there. -/
def Able (s : Monitor T) (t : T) : Prop :=
  s.pc t = .reacquiring ∨
    (s.pc t).queued = true ∧ 0 < (s.semaphore t).sema.value ∧ t ∉ (s.semaphore t).sema.waiters

/-- How far a call of `cond_signal` or `cond_broadcast` has come: of the threads it found
in the queue some are able to return, `pending` is taken from the queue, and the others
are still there. -/
def Progress (s : Monitor T) (t : T) (broadcast : Bool) (pending : List T) : Prop :=
  ∃ done, s.seen t = done ++ pending ++ s.waiters ∧ (broadcast = false → done = []) ∧
    ∀ u ∈ done, s.Able u

def CallOk (s : Monitor T) (t : T) : Prop :=
  match s.pc t with
  | .broadcasting => s.Progress t true []
  | .signalling broadcast => s.Progress t broadcast []
  | .upping w broadcast => s.Progress t broadcast [w]
  | _ => True

/-- **The invariant of a condition.**  The queue holds the threads that have entered and
have not been signalled, in the order in which they entered.  A thread's semaphore is up
as soon as the signal that chose the thread has upped it. -/
structure Inv (s : Monitor T) : Prop where
  lock : s.lock.Inv
  lockPc : ∀ t, (s.pc t).LockOk (s.lock.pc t)
  mem_waiters : ∀ t, t ∈ s.waiters ↔ s.Unsignalled t
  sorted : s.waiters.Pairwise fun t u => s.ticket t < s.ticket u
  ticket_lt : ∀ t ∈ s.waiters, s.ticket t < s.entries
  chosen_le : ∀ t, (s.pc t).queued = true → s.chosen t ≤ 1
  returning : ∀ t, s.pc t = .reacquiring → s.chosen t = 1
  semaphore : ∀ t, (s.pc t).SemaphoreOk t (s.semaphore t)
  upped : ∀ t, (s.pc t).queued = true →
    (0 < (s.semaphore t).sema.value ↔ s.chosen t = 1 ∧ ∀ u b, s.pc u ≠ .upping t b)
  upping : ∀ u w b, s.pc u = .upping w b → (s.pc w).queued = true ∧ s.chosen w = 1
  call : ∀ t, s.CallOk t

theorem inv_start : (start : Monitor T).Inv where
  lock := Locking.inv_start
  lockPc _ := trivial
  mem_waiters t := by simp [start, Unsignalled, CondPc.queued]
  sorted := .nil
  ticket_lt := nofun
  chosen_le _ := nofun
  returning _ := nofun
  semaphore _ := trivial
  upped _ := nofun
  upping _ _ _ := nofun
  call _ := trivial

/-! ## The steps -/

section Steps
variable {s s' : Monitor T} {t u w : T} {p : CondPc T}

/-- **What the invariant says of one thread**: of its place, of whether it is in the queue, how
many signals have chosen it, its semaphore, and whether a signal is about to up that. -/
structure PlaceOk (t : T) (p : CondPc T) (waits : Prop) (chosen : Nat) (x : Semaphore.Usage T)
    (upping : Prop) : Prop where
  waits_iff : waits ↔ p.queued = true ∧ chosen = 0
  chosen_le : p.queued = true → chosen ≤ 1
  returning : p = .reacquiring → chosen = 1
  semaphore : p.SemaphoreOk t x
  upped : p.queued = true → (0 < x.sema.value ↔ chosen = 1 ∧ ¬upping)
  upping : upping → p.queued = true ∧ chosen = 1

section Places
variable {waits upping : Prop} {chosen : Nat} {x : Semaphore.Usage T}

theorem PlaceOk.not_queued (h : PlaceOk t p waits chosen x upping) (hp : p.queued = false) :
    ¬waits ∧ ¬upping := by
  refine ⟨fun hw => ?_, fun hu => ?_⟩
  · exact Bool.false_ne_true (hp.symm.trans (h.waits_iff.mp hw).1)
  · exact Bool.false_ne_true (hp.symm.trans (h.upping hu).1)

/-- A thread that is in no wait. -/
theorem placeOk_of_not_queued (hp : p.queued = false) (hne : p ≠ .reacquiring)
    (hnot : ¬waits ∧ ¬upping) : PlaceOk t p waits chosen x upping := by
  refine ⟨by simp [hnot.1, hp], by simp [hp], fun h => absurd h hne, ?_, by simp [hp],
    fun h => absurd h hnot.2⟩
  cases p <;> trivial

end Places

/-- A signal is about to up the semaphore of the thread. -/
def Upping (s : Monitor T) (w : T) : Prop :=
  ∃ u b, s.pc u = .upping w b

def Place (s : Monitor T) (t : T) : Prop :=
  PlaceOk t (s.pc t) (t ∈ s.waiters) (s.chosen t) (s.semaphore t) (s.Upping t)

theorem inv_of_places (hlock : s.lock.Inv) (hlockPc : ∀ t, (s.pc t).LockOk (s.lock.pc t))
    (hplace : ∀ t, s.Place t) (hsorted : s.waiters.Pairwise fun t u => s.ticket t < s.ticket u)
    (hticket : ∀ t ∈ s.waiters, s.ticket t < s.entries) (hcall : ∀ t, s.CallOk t) : s.Inv where
  lock := hlock
  lockPc := hlockPc
  mem_waiters t := (hplace t).waits_iff
  sorted := hsorted
  ticket_lt := hticket
  chosen_le t := (hplace t).chosen_le
  returning t := (hplace t).returning
  semaphore t := (hplace t).semaphore
  upped t ht := ((hplace t).upped ht).trans (by simp [Upping])
  upping u w b hu := (hplace w).upping ⟨u, b, hu⟩
  call := hcall

namespace Inv

theorem place (h : s.Inv) (t : T) : s.Place t :=
  ⟨h.mem_waiters t, h.chosen_le t, h.returning t, h.semaphore t,
    fun ht => (h.upped t ht).trans (by simp [Upping]), fun ⟨u, b, hu⟩ => h.upping u t b hu⟩

/-- Only one thread is in a part that needs the lock. -/
theorem not_critical (h : s.Inv) (hlock : (s.lock.pc t).hasSemaphore = true) (hu : u ≠ t) :
    (s.pc u).critical = false := by
  rw [← Bool.not_eq_true]
  intro hcritical
  have hholding := (h.lockPc u).holding hcritical
  exact hu (h.lock.unique hlock (by rw [hholding]; rfl))

end Inv

theorem Able.congr (h : s.Able u) (hpc : s'.pc u = s.pc u)
    (hsemaphore : s'.semaphore u = s.semaphore u) : s'.Able u := by
  unfold Able at h ⊢
  rwa [hpc, hsemaphore]

theorem Able.ne (h : s.Able u) (ht : (s.pc t).critical = true) : u ≠ t := by
  rintro rfl
  rcases h with hpc | ⟨hqueued, -⟩
  · rw [hpc] at ht
    cases ht
  · cases hp : s.pc u <;> rw [hp] at ht hqueued <;> first | cases ht; done | cases hqueued

/-- A call comes along as long as those who were able to return are. -/
theorem CallOk.mono (h : s.CallOk u) (hpc : s'.pc u = s.pc u) (hseen : s'.seen u = s.seen u)
    (hwaiters : s'.waiters = s.waiters)
    (hable : (s.pc u).critical = true → ∀ v, s.Able v → s'.Able v) : s'.CallOk u := by
  have hprogress : ∀ b pending, (s.pc u).critical = true → s.Progress u b pending →
      s'.Progress u b pending := by
    rintro b pending hcritical ⟨done, hdone, hfalse, hall⟩
    refine ⟨done, by rw [hseen, hwaiters, hdone], hfalse, fun v hv => ?_⟩
    exact hable hcritical v (hall v hv)
  unfold CallOk at h ⊢
  rw [hpc]
  cases hp : s.pc u with
  | broadcasting | signalling b | upping w b =>
    rw [hp] at h
    exact hprogress _ _ (by rw [hp]; rfl) h
  | _ => trivial

/-- A thread that does not need the lock is in no call that signals. -/
theorem callOk_of_not_critical (h : (s.pc u).critical = false) : s.CallOk u := by
  unfold CallOk
  cases hp : s.pc u with
  | broadcasting | signalling b | upping w b => rw [hp] at h; cases h
  | _ => trivial

variable [DecidableEq T]

/-- Who needs the lock is not who is able to return. -/
theorem Able.update (h : s.Able u) (ht : (s.pc t).critical = true)
    (hpc : s'.pc = update s.pc t p) (hsemaphore : s'.semaphore u = s.semaphore u) : s'.Able u :=
  h.congr (by rw [hpc, update_of_ne (h.ne ht)]) hsemaphore

section
variable (h : s.Inv) (hlock : (s.lock.pc t).hasSemaphore = true)
include h hlock

/-- Only the thread that has the lock can be in a call. -/
theorem Inv.calls (hpc : s'.pc = Function.update s.pc t p) (hcall : s'.CallOk t) (u : T) :
    s'.CallOk u := by
  by_cases hu : u = t
  · exact hu ▸ hcall
  · refine callOk_of_not_critical ?_
    rw [hpc, update_of_ne hu]
    exact h.not_critical hlock hu

/-- Nor can another thread be about to up a semaphore. -/
theorem Inv.upping_iff (hpc : s'.pc = Function.update s.pc t p) (w : T) :
    s'.Upping w ↔ ∃ b, p = .upping w b := by
  refine ⟨fun ⟨u, b, hu⟩ => ⟨b, ?_⟩, fun ⟨b, hp⟩ => ⟨t, b, by rw [hpc, update_self, hp]⟩⟩
  rw [hpc] at hu
  by_cases hut : u = t
  · rwa [hut, update_self] at hu
  · rw [update_of_ne hut] at hu
    have hcritical := h.not_critical hlock hut
    rw [hu] at hcritical
    cases hcritical

theorem Inv.upping_self (w : T) :
    s.Upping w ↔ ∃ b, s.pc t = .upping w b :=
  h.upping_iff hlock (Function.update_eq_self t s.pc).symm w

end

theorem upping_update (hpc : s'.pc = update s.pc t p) (hfrom : (s.pc t).isUpping = false)
    (hto : p.isUpping = false) (w : T) : s'.Upping w ↔ s.Upping w := by
  refine exists₂_congr fun u b => ?_
  rw [hpc]
  by_cases hu : u = t
  · subst hu
    rw [update_self]
    refine ⟨fun heq => ?_, fun heq => ?_⟩
    · rw [heq] at hto
      cases hto
    · rw [heq] at hfrom
      cases hfrom
  · rw [update_of_ne hu]

namespace Inv

theorem lockPc_update (h : s.Inv) (hp : p.LockOk (s.lock.pc t)) (u : T) :
    (update s.pc t p u).LockOk (s.lock.pc u) :=
  (forall_update_iff s.pc fun u q => q.LockOk (s.lock.pc u)).mpr ⟨hp, fun u _ => h.lockPc u⟩ u

/-- **The lock's holder goes on** in a function of the condition and touches nothing but
what it has seen. -/
theorem walk (h : s.Inv) (hlock : s.lock.pc t = .holding) (hpc : s'.pc = update s.pc t p)
    (hsame : s'.lock = s.lock ∧ s'.waiters = s.waiters ∧ s'.semaphore = s.semaphore ∧
      s'.entries = s.entries ∧ s'.ticket = s.ticket ∧ s'.chosen = s.chosen)
    (hfrom : (s.pc t).critical = true ∧ (s.pc t).isUpping = false ∨ s.pc t = .outside)
    (hto : p.critical = true ∧ p.isUpping = false ∨ p = .outside) (hcall : s'.CallOk t) :
    s'.Inv := by
  obtain ⟨hlock', hwaiters, hsemaphore, hentries, hticket, hchosen⟩ := hsame
  have hclass : ∀ q : CondPc T, (q.critical = true ∧ q.isUpping = false ∨ q = .outside) →
      q.queued = false ∧ q.isUpping = false ∧ q ≠ .reacquiring ∧ q.LockOk .holding := by
    intro q hq
    cases q <;> simp [CondPc.critical, CondPc.isUpping] at hq <;>
      simp [CondPc.queued, CondPc.isUpping, CondPc.LockOk]
  obtain ⟨hfqueued, hfupping, -, -⟩ := hclass _ hfrom
  obtain ⟨htqueued, htupping, htne, htlock⟩ := hclass _ hto
  refine inv_of_places (hlock' ▸ h.lock) ?_ (fun u => ?_) ?_ ?_
    (h.calls (by rw [hlock]; rfl) hpc hcall)
  · rw [hpc, hlock']
    exact h.lockPc_update (by rwa [hlock])
  · rw [Place, hwaiters, hchosen, hsemaphore, upping_update hpc hfupping htupping, hpc]
    by_cases hu : u = t
    · subst hu
      rw [update_self]
      exact placeOk_of_not_queued htqueued htne ((h.place u).not_queued hfqueued)
    · rw [update_of_ne hu]
      exact h.place u
  · rw [hwaiters, hticket]
    exact h.sorted
  · rw [hwaiters, hticket, hentries]
    exact h.ticket_lt

/-- **A thread enters** the queue, at its end. -/
theorem enqueued (h : s.Inv) (ht : s.pc t = .enqueuing) : (s.enqueued t).Inv := by
  have hlock : s.lock.pc t = .holding := (h.lockPc t).holding (by rw [ht]; rfl)
  obtain ⟨hnot, hnupping⟩ := (h.place t).not_queued (by rw [ht]; rfl)
  have hne : ∀ u ∈ s.waiters, u ≠ t := fun u hu heq => hnot (heq ▸ hu)
  have hself : (s.enqueued t).pc t = .releasing := update_self _ _ _
  have hupping : ∀ w, (s.enqueued t).Upping w ↔ s.Upping w :=
    upping_update rfl (by rw [ht]; rfl) rfl
  refine inv_of_places h.lock (h.lockPc_update (.inl hlock)) (fun u => ?_) ?_ (fun u hu => ?_)
    (h.calls (by rw [hlock]; rfl) rfl (callOk_of_not_critical (by rw [hself]; rfl)))
  · rw [Place, hupping]
    by_cases hu : u = t
    · subst hu
      rw [hself]
      exact ⟨by simp [Monitor.enqueued, CondPc.queued], by simp [Monitor.enqueued], nofun,
        by simp [Monitor.enqueued, CondPc.SemaphoreOk, Semaphore.Usage.start, Semaphore.init],
        by simp [Monitor.enqueued, Semaphore.Usage.start, Semaphore.init],
        fun hup => absurd hup hnupping⟩
    · simp only [Monitor.enqueued, update_of_ne hu, List.mem_append, List.mem_singleton, hu,
        or_false]
      exact h.place u
  · simp only [Monitor.enqueued, List.pairwise_append, List.mem_singleton, forall_eq, update_self]
    refine ⟨h.sorted.imp_of_mem fun hu hv hlt => ?_, List.pairwise_singleton _ _, fun u hu => ?_⟩
    · rwa [update_of_ne (hne _ hu), update_of_ne (hne _ hv)]
    · rw [update_of_ne (hne u hu)]
      exact h.ticket_lt u hu
  · simp only [Monitor.enqueued, List.mem_append, List.mem_singleton] at hu ⊢
    rcases hu with hu | rfl
    · rw [update_of_ne (hne u hu)]
      exact Nat.lt_succ_of_lt (h.ticket_lt u hu)
    · rw [update_self]
      exact Nat.lt_succ_self _

/-- **A waiting thread goes on**: it stays in the queue of its semaphore or leaves it, or
finds its semaphore up and goes on to acquire the lock. -/
theorem waiter (h : s.Inv) (ht : (s.pc t).queued = true) {x : Semaphore.Usage T}
    (hpc : s'.pc = update s.pc t p) (hsemaphore : s'.semaphore = update s.semaphore t x)
    (hsame : s'.waiters = s.waiters ∧ s'.entries = s.entries ∧ s'.ticket = s.ticket ∧
      s'.chosen = s.chosen ∧ s'.seen = s.seen)
    (hlock : s'.lock.Inv) (hlockPc : ∀ u, (s'.pc u).LockOk (s'.lock.pc u))
    (hx : p.SemaphoreOk t x)
    (hto : p.queued = true ∧ (0 < x.sema.value ↔ 0 < (s.semaphore t).sema.value) ∨
      p = .reacquiring ∧ 0 < (s.semaphore t).sema.value) : s'.Inv := by
  obtain ⟨hwaiters, hentries, hticket, hchosen, hseen⟩ := hsame
  have hnotUpping : ∀ q : CondPc T, q.queued = true ∨ q = .reacquiring →
      q.isUpping = false ∧ q.critical = false := by
    intro q hq
    cases q <;> simp [CondPc.queued] at hq <;> simp [CondPc.isUpping, CondPc.critical]
  obtain ⟨hpupping, hpcritical⟩ := hnotUpping p (hto.imp And.left And.left)
  have hself : s'.pc t = p ∧ s'.semaphore t = x := by
    rw [hpc, hsemaphore, update_self, update_self]
    exact ⟨rfl, rfl⟩
  have hother : ∀ u, u ≠ t → s'.pc u = s.pc u ∧ s'.semaphore u = s.semaphore u := by
    intro u hu
    rw [hpc, hsemaphore, update_of_ne hu, update_of_ne hu]
    exact ⟨rfl, rfl⟩
  refine inv_of_places hlock hlockPc (fun u => ?_) ?_ ?_ fun u => ?_
  · rw [Place, hwaiters, hchosen, upping_update hpc (hnotUpping _ (.inl ht)).1 hpupping]
    have hplace := h.place u
    by_cases hu : u = t
    · subst hu
      rw [hself.1, hself.2]
      rcases hto with ⟨hq, hval⟩ | ⟨rfl, hpos⟩
      · refine ⟨?_, fun _ => hplace.chosen_le ht, ?_, hx, fun _ => hval.trans (hplace.upped ht),
          fun hup => ⟨hq, (hplace.upping hup).2⟩⟩
        · rw [hplace.waits_iff, hq, ht]
        · rintro rfl
          cases hq
      · -- who goes on to acquire the lock was chosen, and that signal is over
        obtain ⟨hone, hover⟩ := (hplace.upped ht).mp hpos
        exact ⟨by simp [hplace.waits_iff, hone], nofun, fun _ => hone, hx, nofun,
          fun hup => absurd hup hover⟩
    · rw [(hother u hu).1, (hother u hu).2]
      exact hplace
  · rw [hwaiters, hticket]
    exact h.sorted
  · rw [hwaiters, hticket, hentries]
    exact h.ticket_lt
  · by_cases hut : u = t
    · refine callOk_of_not_critical ?_
      rw [hut, hself.1]
      exact hpcritical
    · refine (h.call u).mono (hother u hut).1 (by rw [hseen]) hwaiters fun _ v hv => ?_
      by_cases hvt : v = t
      · subst hvt
        rcases hv with hv | ⟨-, hval, -⟩
        · rw [hv] at ht
          cases ht
        · rcases hto with ⟨hq, hval'⟩ | ⟨hp, -⟩
          · refine .inr ?_
            rw [hself.1, hself.2]
            exact ⟨hq, hval'.mpr hval, hx.notMem hq (hval'.mpr hval)⟩
          · exact .inl (hself.1.trans hp)
      · exact hv.congr (hother v hvt).1 (hother v hvt).2

/-- **A thread downs its semaphore**, or blocks there. -/
theorem semaDown (h : s.Inv) (ht : s.pc t = .waiting) : (s.tested t (.down t)).Inv := by
  have hlock : s.lock.pc t = .outside := by
    have := h.lockPc t
    rwa [ht] at this
  obtain ⟨hqueue, hwoken, -⟩ : CondPc.SemaphoreOk t .waiting (s.semaphore t) := ht ▸ h.semaphore t
  rw [Monitor.tested]
  rcases Nat.eq_zero_or_pos (s.semaphore t).sema.value with hzero | hpos
  · simp only [Semaphore.down_of_zero hzero]
    refine h.waiter (by rw [ht]; rfl) rfl rfl ⟨rfl, rfl, rfl, rfl, rfl⟩ h.lock
      (h.lockPc_update hlock) ?_ (.inl ⟨rfl, ?_⟩)
    · refine .inl ⟨?_, hwoken⟩
      simp [Semaphore.Usage.apply, Semaphore.down_of_zero hzero, hqueue, hzero]
    · simp [Semaphore.Usage.apply, Semaphore.down_of_zero hzero]
  · simp only [Semaphore.down_of_pos hpos]
    exact h.waiter (by rw [ht]; rfl) rfl rfl ⟨rfl, rfl, rfl, rfl, rfl⟩ h.lock
      (h.lockPc_update (.inl hlock)) trivial (.inr ⟨rfl, hpos⟩)

omit [DecidableEq T] in
/-- An unblocked thread finds its semaphore up. -/
theorem value_of_woken (h : s.Inv) (ht : s.pc t = .downing) (hwoken : t ∈ (s.semaphore t).woken) :
    0 < (s.semaphore t).sema.value := by
  have hsema : CondPc.SemaphoreOk t .downing (s.semaphore t) := ht ▸ h.semaphore t
  rcases hsema with ⟨-, hnone⟩ | ⟨hone, -⟩
  · rw [hnone] at hwoken
    cases hwoken
  · rw [hone]
    exact Nat.one_pos

section
variable (h : s.Inv)
include h

/-- **An unblocked thread** downs its semaphore. -/
theorem retry (ht : s.pc t = .downing) (hwoken : t ∈ (s.semaphore t).woken) :
    (s.tested t (.retry t)).Inv := by
  have hlock : s.lock.pc t = .outside := by
    have := h.lockPc t
    rwa [ht] at this
  have hpos := h.value_of_woken ht hwoken
  rw [Monitor.tested]
  simp only [Semaphore.down_of_pos hpos]
  exact h.waiter (by rw [ht]; rfl) rfl rfl ⟨rfl, rfl, rfl, rfl, rfl⟩ h.lock
    (h.lockPc_update (.inl hlock)) trivial (.inr ⟨rfl, hpos⟩)

/-- **A signal takes the first thread from the queue.** -/
theorem popped {b : Bool} {rest : List T} (ht : s.pc t = .signalling b)
    (hqueue : s.waiters = w :: rest) : (s.popped t b).Inv := by
  have hlock : s.lock.pc t = .holding := (h.lockPc t).holding (by rw [ht]; rfl)
  obtain ⟨hw, hzero⟩ : s.Unsignalled w := (h.mem_waiters w).mp (by rw [hqueue]; simp)
  have hsorted := h.sorted
  rw [hqueue, List.pairwise_cons] at hsorted
  have hwt : w ≠ t := by
    rintro rfl
    rw [ht] at hw
    cases hw
  have heq : s.popped t b = { s with
      waiters := rest
      pc := update s.pc t (.upping w b)
      chosen := update s.chosen w (s.chosen w + 1) } := by
    rw [Monitor.popped, hqueue]
  rw [heq]
  have hholds : (s.lock.pc t).hasSemaphore = true := by rw [hlock]; rfl
  have hupping : ∀ v, s.Upping v ↔ False := fun v => (h.upping_self hholds v).trans (by simp [ht])
  refine inv_of_places h.lock (h.lockPc_update hlock) (fun u => ?_) hsorted.2 (fun u hu => ?_)
    (h.calls hholds rfl ?_)
  · rw [Place, h.upping_iff hholds rfl]
    have hplace := h.place u
    rw [Place, hqueue, hupping] at hplace
    by_cases hut : u = t
    · subst hut
      simp only [update_self]
      obtain ⟨hnot, -⟩ := hplace.not_queued (by rw [ht]; rfl)
      refine placeOk_of_not_queued rfl nofun ⟨fun hu => hnot (List.mem_cons_of_mem _ hu), ?_⟩
      rintro ⟨b', heq⟩
      cases heq
      exact hwt rfl
    by_cases huw : u = w
    · subst huw
      have hnot : u ∉ rest := fun hmem => Nat.lt_irrefl _ (hsorted.1 u hmem)
      -- chosen, and not upped yet
      have hdown := hplace.upped hw
      simp only [update_of_ne hut, update_self, hzero] at hdown ⊢
      exact ⟨by simp [hnot], fun _ => Nat.le_refl 1, fun _ => rfl, hplace.semaphore,
        fun _ => by simpa using hdown, fun _ => ⟨hw, rfl⟩⟩
    · simp only [update_of_ne hut, update_of_ne huw]
      simpa [huw, Ne.symm huw] using hplace
  · exact h.ticket_lt u (by rw [hqueue]; exact List.mem_cons_of_mem _ hu)
  · obtain ⟨done, hdone, hfalse, hable⟩ : s.Progress t b [] := by
      have hcall := h.call t
      rwa [CallOk, ht] at hcall
    simp only [CallOk, update_self]
    exact ⟨done, by simpa [hqueue] using hdone, hfalse, fun v hv =>
      (hable v hv).update (by rw [ht]; rfl) rfl rfl⟩

/-- **A signal ups the semaphore of the thread it has chosen**, wherever that thread is in
its `cond_wait`. -/
theorem upped_step {b : Bool} (ht : s.pc t = .upping w b) :
    (s.upped t w b).Inv ∧ (s.upped t w b).Able w := by
  have hlock : s.lock.pc t = .holding := (h.lockPc t).holding (by rw [ht]; rfl)
  have hholds : (s.lock.pc t).hasSemaphore = true := by rw [hlock]; rfl
  obtain ⟨hw, hone⟩ := h.upping t w b ht
  have hwt : w ≠ t := by
    rintro rfl
    rw [ht] at hw
    cases hw
  have hzero : (s.semaphore w).sema.value = 0 := by
    refine Nat.eq_zero_of_not_pos fun hpos => ?_
    exact ((h.upped w hw).mp hpos).2 t b ht
  obtain ⟨hsema, hvalue⟩ := (h.semaphore w).up hw hzero
  obtain ⟨hpqueued, hpupping, hpne, hplock⟩ := CondPc.afterSignal_spec (T := T) b
  have hable : (s.upped t w b).Able w := by
    refine .inr ?_
    simp only [Monitor.upped, update_self, update_of_ne hwt, hvalue]
    exact ⟨hw, Nat.one_pos, hsema.notMem hw (by rw [hvalue]; exact Nat.one_pos)⟩
  have hnobody : ∀ v, ¬(s.upped t w b).Upping v := by
    intro v hv
    obtain ⟨b', hp⟩ := (h.upping_iff hholds rfl v).mp hv
    rw [hp] at hpupping
    cases hpupping
  refine ⟨inv_of_places h.lock (h.lockPc_update (by rwa [hlock])) (fun u => ?_) h.sorted h.ticket_lt
    (h.calls hholds rfl ?_), hable⟩
  · rw [Place, eq_false (hnobody u)]
    have hplace := h.place u
    by_cases hut : u = t
    · subst hut
      simp only [Monitor.upped, update_self]
      have hnot := hplace.not_queued (by rw [ht]; rfl)
      exact placeOk_of_not_queued hpqueued hpne ⟨hnot.1, id⟩
    by_cases huw : u = w
    · subst huw
      simp only [Monitor.upped, update_of_ne hut, update_self]
      exact ⟨hplace.waits_iff, hplace.chosen_le, hplace.returning, hsema,
        fun _ => by simp [hvalue, hone], False.elim⟩
    · have hother : s.Upping u ↔ False :=
        (h.upping_self hholds u).trans (by simp [ht, Ne.symm huw])
      rw [Place, hother] at hplace
      simpa only [Monitor.upped, update_of_ne hut, update_of_ne huw] using hplace
  · obtain ⟨done, hdone, hfalse, hall⟩ : s.Progress t b [w] := by
      have hcall := h.call t
      rwa [CallOk, ht] at hcall
    cases b with
    | false =>
      refine callOk_of_not_critical ?_
      simp only [Monitor.upped, update_self]
      rfl
    | true =>
      simp only [CallOk, Monitor.upped, update_self]
      refine ⟨done ++ [w], by simpa using hdone, nofun, fun v hv => ?_⟩
      by_cases hvw : v = w
      · exact hvw ▸ hable
      · have hv' := (List.mem_append.mp hv).resolve_right (mt List.mem_singleton.mp hvw)
        exact (hall v hv').update (by rw [ht]; rfl) rfl (update_of_ne hvw _ _)

/-- The steps of the lock keep to the place a thread has in the condition's functions. -/
theorem lockPc_lock {e : LockEvent T} (he : s.lock.Enabled e) (hpermits : s.Permits e) (u : T) :
    (s.afterLock e u).LockOk ((s.lock.apply e).pc u) := by
  have hfree : ∀ t, s.lock.pc t = .outside → s.lock.heldByCurrentThread t = false := by
    intro t ht
    rw [h.lock.heldByCurrentThread_eq, ht]
    rfl
  -- only the place of one thread changes, in the lock and possibly in the condition
  have hmove : ∀ t p l, CondPc.LockOk p l →
      (update s.pc t p u).LockOk (update s.lock.pc t l u) := by
    intro t p l hp
    by_cases hu : u = t
    · rwa [hu, update_self, update_self]
    · rw [update_of_ne hu, update_of_ne hu]
      exact h.lockPc u
  have hstay : ∀ t l, (s.pc t).LockOk l → (s.pc u).LockOk (update s.lock.pc t l u) := by
    intro t l hl
    have := hmove t (s.pc t) l hl
    rwa [Function.update_eq_self] at this
  have htest : ∀ b, CondPc.LockOk (.reacquiring : CondPc T) (Locking.afterTest b .downing) := by
    intro b
    cases b
    · exact .inr (.inr (.inl rfl))
    · exact .inr (.inr (.inr rfl))
  cases e with
  | callAcquire t =>
    refine hstay t _ ?_
    rw [hfree t he]
    rcases hpermits with hp | hp <;> rw [hp]
    · trivial
    · exact .inr (.inl rfl)
  | callTryAcquire t =>
    refine hstay t _ ?_
    rw [show s.pc t = .outside from hpermits]
    trivial
  | semaDown t =>
    refine hstay t _ ?_
    rcases (h.lockPc t).acquire (.inl he) with hp | hp <;> rw [hp]
    · trivial
    · exact htest _
  | retry t =>
    refine hstay t _ ?_
    rcases (h.lockPc t).acquire (.inr (.inl he.1)) with hp | hp <;> rw [hp]
    · trivial
    · exact htest _
  | semaTryDown t =>
    refine hstay t _ ?_
    have hlock := h.lockPc t
    rw [show s.lock.pc t = .tryAcquiring from he] at hlock
    rw [hlock.tryAcquire]
    trivial
  | callRelease t =>
    refine hstay t _ ?_
    have hheld : s.lock.heldByCurrentThread t = true := by
      rw [h.lock.heldByCurrentThread_eq, show s.lock.pc t = .holding from he]
      rfl
    rw [hheld]
    rcases hpermits with hp | hp <;> rw [hp]
    · trivial
    · exact .inr (.inl rfl)
  | clearHolder t =>
    refine hstay t _ ?_
    rcases (h.lockPc t).release (.inl he) with hp | hp <;> rw [hp]
    · trivial
    · exact .inr (.inr rfl)
  | semaUp t =>
    rcases (h.lockPc t).release (.inr he) with hp | hp
    · simp only [afterLock, hp]
      exact hstay t _ (by rw [hp]; trivial)
    · simp only [afterLock, hp, if_true]
      exact hmove t _ _ rfl
  | setHolder t =>
    rcases (h.lockPc t).acquire (.inr (.inr he)) with hp | hp
    · simp only [afterLock, hp]
      exact hstay t _ (by rw [hp]; trivial)
    · simp only [afterLock, hp, if_true]
      exact hmove t _ _ trivial

/-- **The lock is used**, by `cond_wait` or otherwise. -/
theorem lock_step {e : LockEvent T} (he : s.lock.Enabled e) (hpermits : s.Permits e) :
    Inv { s with lock := s.lock.apply e, pc := s.afterLock e } := by
  have hlock := h.lock.apply he
  have hlockPc := h.lockPc_lock he hpermits
  by_cases hrelease : ∃ t, e = .semaUp t ∧ s.pc t = .releasing
  · obtain ⟨t, rfl, ht⟩ := hrelease
    refine h.waiter (t := t) (x := s.semaphore t) (by rw [ht]; rfl) ?_ ?_
      ⟨rfl, rfl, rfl, rfl, rfl⟩ hlock hlockPc (p := .waiting) ?_ (.inl ⟨rfl, Iff.rfl⟩)
    · simp [afterLock, ht]
    · simp
    · have := h.semaphore t
      rwa [ht] at this
  by_cases hreturn : ∃ t, e = .setHolder t ∧ s.pc t = .reacquiring
  · obtain ⟨t, rfl, ht⟩ := hreturn
    -- the semaphore of the lock is taken, so nobody signals meanwhile
    have htaken : (s.lock.pc t).hasSemaphore = true := by
      rw [show s.lock.pc t = .taken from he]
      rfl
    have hpc : s.afterLock (.setHolder t) = update s.pc t .outside := by simp [afterLock, ht]
    rw [hpc] at hlockPc ⊢
    refine inv_of_places hlock hlockPc (fun u => ?_) h.sorted h.ticket_lt
      (h.calls htaken rfl (callOk_of_not_critical (by simp only [update_self]; rfl)))
    rw [Place, upping_update rfl (by rw [ht]; rfl) rfl]
    by_cases hut : u = t
    · subst hut
      simp only [update_self]
      exact placeOk_of_not_queued rfl nofun ((h.place u).not_queued (by rw [ht]; rfl))
    · simp only [update_of_ne hut]
      exact h.place u
  · have hpc : s.afterLock e = s.pc := by
      cases e with
      | semaUp t => exact if_neg fun ht => hrelease ⟨t, rfl, ht⟩
      | setHolder t => exact if_neg fun ht => hreturn ⟨t, rfl, ht⟩
      | _ => rfl
    rw [hpc] at hlockPc ⊢
    exact ⟨hlock, hlockPc, h.mem_waiters, h.sorted, h.ticket_lt, h.chosen_le, h.returning,
      h.semaphore, h.upped, h.upping, fun u => (h.call u).mono rfl rfl rfl fun _ _ hv => hv⟩

theorem held (hlock : s.lock.pc t = .holding) :
    s.lock.heldByCurrentThread t = true := by
  rw [h.lock.heldByCurrentThread_eq, hlock]
  rfl

/-- **Every step keeps the invariant**, and no assertion fails. -/
theorem step {e : CondEvent T} (he : s.Enabled e) :
    ∃ s', s.apply e = some s' ∧ s'.Inv := by
  have hholding : ∀ t, (s.pc t).critical = true → s.lock.pc t = .holding :=
    fun t ht => (h.lockPc t).holding ht
  cases e with
  | lock e => exact ⟨_, rfl, h.lock_step he.1 he.2⟩
  | callWait t =>
    have hcode : s.apply (.callWait t) = some (s.goto t .enqueuing) := by
      rw [apply, assert_of (h.held he.2)]
      rfl
    refine ⟨_, hcode, h.walk he.2 rfl ⟨rfl, rfl, rfl, rfl, rfl, rfl⟩ (.inr he.1)
      (.inl ⟨rfl, rfl⟩) ?_⟩
    simp [CallOk, goto]
  | enqueue t => exact ⟨_, rfl, h.enqueued he⟩
  | semaDown t => exact ⟨_, rfl, h.semaDown he⟩
  | retry t => exact ⟨_, rfl, h.retry he.1 he.2⟩
  | callSignal t =>
    have hcode : s.apply (.callSignal t) = some (s.called t (.signalling false)) := by
      rw [apply, assert_of (h.held he.2)]
      rfl
    refine ⟨_, hcode, h.walk he.2 rfl ⟨rfl, rfl, rfl, rfl, rfl, rfl⟩ (.inr he.1)
      (.inl ⟨rfl, rfl⟩) ?_⟩
    simp [CallOk, called, Progress]
  | callBroadcast t =>
    refine ⟨_, rfl, h.walk he.2 rfl ⟨rfl, rfl, rfl, rfl, rfl, rfl⟩ (.inr he.1)
      (.inl ⟨rfl, rfl⟩) ?_⟩
    simp only [CallOk, called, update_self]
    exact ⟨[], by simp, nofun, nofun⟩
  | test t =>
    have ht : s.pc t = .broadcasting := he
    have hlock := hholding t (by rw [ht]; rfl)
    have hfrom : (s.pc t).critical = true ∧ (s.pc t).isUpping = false ∨ s.pc t = .outside :=
      .inl (by rw [ht]; exact ⟨rfl, rfl⟩)
    by_cases hempty : s.waiters = []
    · refine ⟨_, if_pos hempty, h.walk hlock rfl ⟨rfl, rfl, rfl, rfl, rfl, rfl⟩ hfrom
        (.inr rfl) ?_⟩
      simp [CallOk, goto]
    · have hcode : s.apply (.test t) = some (s.goto t (.signalling true)) := by
        rw [apply, if_neg hempty, assert_of (h.held hlock)]
        rfl
      refine ⟨_, hcode, h.walk hlock rfl ⟨rfl, rfl, rfl, rfl, rfl, rfl⟩ hfrom
        (.inl ⟨rfl, rfl⟩) ?_⟩
      have hcall := h.call t
      rw [CallOk, ht] at hcall
      obtain ⟨done, hdone, hfalse, hall⟩ := hcall
      simp only [CallOk, goto, update_self]
      exact ⟨done, hdone, hfalse, fun v hv => (hall v hv).update (by rw [ht]; rfl) rfl rfl⟩
  | pop t =>
    cases ht : s.pc t with
    | signalling b =>
      have hlock := hholding t (by rw [ht]; rfl)
      refine ⟨s.popped t b, by simp only [apply, ht], ?_⟩
      cases hqueue : s.waiters with
      | cons w rest => exact h.popped ht hqueue
      | nil =>
        have heq : s.popped t b = s.goto t (.afterSignal b) := by rw [Monitor.popped, hqueue]
        rw [heq]
        refine h.walk hlock rfl ⟨rfl, rfl, rfl, rfl, rfl, rfl⟩ (.inl (by rw [ht]; exact ⟨rfl, rfl⟩))
          ?_ ?_
        · cases b
          · exact .inr rfl
          · exact .inl ⟨rfl, rfl⟩
        · have hcall := h.call t
          rw [CallOk, ht] at hcall
          obtain ⟨done, hdone, hfalse, hall⟩ := hcall
          cases b with
          | false => simp [CallOk, goto, CondPc.afterSignal]
          | true =>
            simp only [CallOk, goto, update_self, CondPc.afterSignal, if_true]
            exact ⟨done, hdone, hfalse, fun v hv => (hall v hv).update (by rw [ht]; rfl) rfl rfl⟩
    | _ => simp [Enabled, ht, CondPc.isSignalling] at he
  | semaUp t =>
    cases ht : s.pc t with
    | upping w b => exact ⟨s.upped t w b, by simp only [apply, ht], (h.upped_step ht).1⟩
    | _ => simp [Enabled, ht, CondPc.isUpping] at he

end

end Inv

theorem inv_reachable (hs : system.Reachable s) : s.Inv := by
  refine TransitionSystem.Reachable.invariant ?_ ?_ hs
  · rintro s rfl
    exact inv_start
  · rintro s e s' h ⟨he, hcode⟩
    obtain ⟨s₁, hcode₁, h₁⟩ := h.step he
    rw [hcode₁] at hcode
    exact Option.some.inj hcode ▸ h₁

end Steps

end Monitor
end Pintos
