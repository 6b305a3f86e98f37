import Mathlib.Data.Set.Card
import Pintos.Semaphore

/-!
# Locks

`threads/synch.c`.  A lock is a semaphore with the initial value 1 and a `holder`.
The two are not updated together: a thread that has taken the semaphore becomes the
holder in a later step, and a thread that releases the lock first ceases to be the
holder and then calls `sema_up`.  Preempted in between, it has the semaphore without
being the holder.

Each thread uses the lock as its contract says, `lock_acquire` or a successful
`lock_try_acquire` alternating with `lock_release`.  The steps are the calls with
their assertions, the interrupts-off sections of the semaphore, and the two
assignments to `holder`; any thread may take the next one.  An assertion that fails
leaves its thread in `failed`.

**Mutual exclusion** (`mutual_exclusion`) rests on one invariant (`Locking.Inv`): the
semaphore's value is 1 if no thread has taken it, and 0 if exactly one has.  And
nobody waits in vain for a lock that is free (`free_lock_is_taken`).
-/

namespace Pintos

/-- Where a thread is in its use of the lock. -/
inductive LockPc where
  | outside
  /-- In `lock_acquire`, about to call `sema_down`. -/
  | acquiring
  /-- In the `sema_down` of `lock_acquire`, queued or unblocked. -/
  | downing
  /-- In `lock_try_acquire`, about to call `sema_try_down`. -/
  | tryAcquiring
  /-- The semaphore is taken, `holder` is not yet set. -/
  | taken
  /-- Between the return of an acquire and the call of its release. -/
  | holding
  /-- In `lock_release`, about to clear `holder`. -/
  | releasing
  /-- In `lock_release`, about to call `sema_up`. -/
  | upping
  /-- An assertion has failed. -/
  | failed
  deriving DecidableEq

namespace LockPc

/-- The thread has taken the semaphore and not yet upped it. -/
def hasSemaphore : LockPc → Bool
  | .taken | .holding | .releasing | .upping => true
  | .outside | .acquiring | .downing | .tryAcquiring | .failed => false

/-- The thread has set `holder` and not yet cleared it. -/
def isHolder : LockPc → Bool
  | .holding | .releasing => true
  | .outside | .acquiring | .downing | .tryAcquiring | .taken | .upping | .failed => false

theorem hasSemaphore_of_isHolder {p : LockPc} (h : p.isHolder = true) :
    p.hasSemaphore = true := by
  cases p <;> simp_all [isHolder, hasSemaphore]

end LockPc

/-- `struct lock`, with its semaphore in use, and the place of every thread. -/
structure Locking (T : Type) where
  holder : Option T
  semaphore : Semaphore.Usage T
  pc : T → LockPc

inductive LockEvent (T : Type) where
  | callAcquire (t : T)
  | semaDown (t : T)
  | retry (t : T)
  | callTryAcquire (t : T)
  | semaTryDown (t : T)
  | setHolder (t : T)
  | callRelease (t : T)
  | clearHolder (t : T)
  | semaUp (t : T)
  deriving DecidableEq

namespace Locking
open Function (update update_of_ne update_self)
variable {T : Type}

/-- `lock_init`, before any thread has used the lock. -/
def start : Locking T where
  holder := none
  semaphore := .start 1
  pc _ := .outside

def Enabled (s : Locking T) : LockEvent T → Prop
  | .callAcquire t | .callTryAcquire t => s.pc t = .outside
  | .semaDown t => s.pc t = .acquiring
  | .retry t => s.pc t = .downing ∧ t ∈ s.semaphore.woken
  | .semaTryDown t => s.pc t = .tryAcquiring
  | .setHolder t => s.pc t = .taken
  | .callRelease t => s.pc t = .holding
  | .clearHolder t => s.pc t = .releasing
  | .semaUp t => s.pc t = .upping

section Functions
variable [DecidableEq T]

instance (s : Locking T) : ∀ e, Decidable (s.Enabled e)
  | .callAcquire _ | .callTryAcquire _ | .semaDown _ | .semaTryDown _ | .setHolder _
  | .callRelease _ | .clearHolder _ | .semaUp _ => inferInstanceAs (Decidable (_ = _))
  | .retry _ => inferInstanceAs (Decidable (_ ∧ _))

/-- `lock_held_by_current_thread`, called by `t`. -/
def heldByCurrentThread (s : Locking T) (t : T) : Bool :=
  s.holder == some t

/-- What `t` does next, once its test of the semaphore has come out as `success`. -/
def afterTest (success : Bool) (otherwise : LockPc) : LockPc :=
  if success then .taken else otherwise

def apply (s : Locking T) : LockEvent T → Locking T
  | .callAcquire t =>
    { s with pc := update s.pc t (if s.heldByCurrentThread t then .failed else .acquiring) }
  | .semaDown t =>
    { s with
      semaphore := s.semaphore.apply (.down t)
      pc := update s.pc t (afterTest (s.semaphore.sema.down t).2 .downing) }
  | .retry t =>
    { s with
      semaphore := s.semaphore.apply (.retry t)
      pc := update s.pc t (afterTest (s.semaphore.sema.down t).2 .downing) }
  | .callTryAcquire t =>
    { s with pc := update s.pc t (if s.heldByCurrentThread t then .failed else .tryAcquiring) }
  | .semaTryDown t =>
    { s with
      semaphore := s.semaphore.apply .tryDown
      pc := update s.pc t (afterTest s.semaphore.sema.tryDown.2 .outside) }
  | .setHolder t => { s with holder := some t, pc := update s.pc t .holding }
  | .callRelease t =>
    { s with pc := update s.pc t (if s.heldByCurrentThread t then .releasing else .failed) }
  | .clearHolder t => { s with holder := none, pc := update s.pc t .upping }
  | .semaUp t =>
    { s with semaphore := s.semaphore.apply .up, pc := update s.pc t .outside }

/-- Any threads using one lock. -/
def system : TransitionSystem (Locking T) (LockEvent T) :=
  .guarded start Enabled apply

end Functions

/-! ## The invariant -/

/-- **The semaphore has at most one owner**: its value is 1 and nobody has taken it, or
its value is 0 and `owner` is the one who has. -/
structure OwnedBy (s : Locking T) (owner : Option T) : Prop where
  value : s.semaphore.sema.value + owner.toList.length = 1
  hasSemaphore : ∀ t, (s.pc t).hasSemaphore = true ↔ owner = some t

/-- **The invariant of a lock**: its semaphore has at most one owner; `holder` is the
thread that has set it and not cleared it; the semaphore loses no wake-up and has in
its queue, or unblocked, the threads that are in its `sema_down`; and no assertion has
failed. -/
structure Inv (s : Locking T) : Prop where
  owned : ∃ owner, s.OwnedBy owner
  holder : ∀ t, s.holder = some t ↔ (s.pc t).isHolder = true
  awaited : s.semaphore.Awaited
  inside : ∀ t, s.semaphore.Inside t ↔ s.pc t = .downing
  asserted : ∀ t, s.pc t ≠ .failed

theorem inv_start : (start : Locking T).Inv where
  owned := ⟨none, rfl, fun t => by simp [start, LockPc.hasSemaphore]⟩
  holder t := by simp [start, LockPc.isHolder]
  awaited := Semaphore.Usage.awaited_start 1
  inside t := by simp [start, Semaphore.Usage.start, Semaphore.init, Semaphore.Usage.Inside]
  asserted t := by simp [start]

namespace Inv
variable {s : Locking T} {t u : T}

/-- Only one thread has the semaphore. -/
theorem unique (h : s.Inv) (ht : (s.pc t).hasSemaphore = true)
    (hu : (s.pc u).hasSemaphore = true) : u = t := by
  obtain ⟨owner, howned⟩ := h.owned
  have ht' := (howned.hasSemaphore t).mp ht
  rw [(howned.hasSemaphore u).mp hu] at ht'
  exact Option.some.inj ht'

/-- Only the semaphore's owner can be the holder. -/
theorem isHolder_of_ne (h : s.Inv) (ht : (s.pc t).hasSemaphore = true) (hu : u ≠ t) :
    (s.pc u).isHolder = false := by
  apply Bool.eq_false_iff.mpr
  intro hholder
  exact hu (h.unique ht (LockPc.hasSemaphore_of_isHolder hholder))

/-- A thread that finds the value positive finds the semaphore without an owner. -/
theorem free (h : s.Inv) (hpos : 0 < s.semaphore.sema.value) : s.OwnedBy none := by
  obtain ⟨owner, howned⟩ := h.owned
  cases owner with
  | none => exact howned
  | some u =>
    have hvalue := howned.value
    simp only [Option.toList_some, List.length_singleton] at hvalue
    omega

/-- The value and the number of threads that have the semaphore. -/
theorem value_add_ncard (h : s.Inv) :
    s.semaphore.sema.value + {t | (s.pc t).hasSemaphore = true}.ncard = 1 := by
  obtain ⟨owner, howned⟩ := h.owned
  have hset : {t | (s.pc t).hasSemaphore = true} = {t | owner = some t} :=
    Set.ext howned.hasSemaphore
  rw [hset, ← howned.value]
  cases owner with
  | none => simp
  | some t => simp [Set.ncard_singleton]

end Inv

/-! ## The steps -/

section Steps
variable [DecidableEq T] {s : Locking T} {t : T} {p : LockPc}

theorem OwnedBy.update {owner : Option T} (h : s.OwnedBy owner)
    (hp : p.hasSemaphore = (s.pc t).hasSemaphore) (u : T) :
    (update s.pc t p u).hasSemaphore = true ↔ owner = some u := by
  rw [← h.hasSemaphore u]
  by_cases hu : u = t
  · rw [hu, update_self, hp]
  · rw [update_of_ne hu]

namespace Inv

section
variable (h : s.Inv)
include h

theorem isHolder_update (hp : p.isHolder = (s.pc t).isHolder) (u : T) :
    s.holder = some u ↔ (update s.pc t p u).isHolder = true := by
  rw [h.holder u]
  by_cases hu : u = t
  · rw [hu, update_self, hp]
  · rw [update_of_ne hu]

variable {semaphore : Semaphore.Usage T}

theorem inside_update (hother : ∀ u, u ≠ t → (semaphore.Inside u ↔ s.semaphore.Inside u))
    (hself : semaphore.Inside t ↔ p = .downing) (u : T) :
    semaphore.Inside u ↔ update s.pc t p u = .downing := by
  by_cases hu : u = t
  · rw [hu, update_self, hself]
  · rw [update_of_ne hu, hother u hu, h.inside u]

theorem asserted_update (hp : p ≠ .failed) (u : T) : update s.pc t p u ≠ .failed :=
  (Function.forall_update_iff s.pc fun _ p => p ≠ .failed).mpr ⟨hp, fun u _ => h.asserted u⟩ u

/-- **A thread goes on** without using the semaphore, possibly changing `holder`. -/
theorem move {holder : Option T}
    (hholder : ∀ u, holder = some u ↔ (update s.pc t p u).isHolder = true)
    (hsema : p.hasSemaphore = (s.pc t).hasSemaphore) (hfrom : s.pc t ≠ .downing)
    (hto : p ≠ .downing) (hassert : p ≠ .failed) :
    Inv { s with holder := holder, pc := update s.pc t p } where
  owned := h.owned.imp fun _ howned => ⟨howned.value, howned.update hsema⟩
  holder := hholder
  awaited := h.awaited
  inside := h.inside_update (fun _ _ => Iff.rfl) (by simp [h.inside t, hfrom, hto])
  asserted := h.asserted_update hassert

/-- **A thread takes the semaphore**, in `sema_down` or in `sema_try_down`. -/
theorem take (hpos : 0 < s.semaphore.sema.value)
    (hvalue : semaphore.sema.value = s.semaphore.sema.value - 1) (hawaited : semaphore.Awaited)
    (hinside : ∀ u, semaphore.Inside u ↔ u ≠ t ∧ s.semaphore.Inside u)
    (hholder : (s.pc t).isHolder = false) :
    Inv { s with semaphore := semaphore, pc := update s.pc t .taken } := by
  have hfree := h.free hpos
  have hone : s.semaphore.sema.value = 1 := hfree.value
  refine ⟨⟨some t, ?_, fun u => ?_⟩, h.isHolder_update hholder.symm, hawaited,
    h.inside_update (fun u hu => ?_) ?_, h.asserted_update (by simp)⟩
  · show semaphore.sema.value + 1 = 1
    omega
  · show (update s.pc t .taken u).hasSemaphore = true ↔ _
    by_cases hu : u = t
    · simp [hu, LockPc.hasSemaphore]
    · rw [update_of_ne hu, hfree.hasSemaphore u]
      simp [Ne.symm hu]
  · simp [hinside u, hu]
  · simp [hinside t]

/-- **A thread queues up**, or queues up again. -/
theorem wait (hvalue : semaphore.sema.value = s.semaphore.sema.value) (hawaited : semaphore.Awaited)
    (hinside : ∀ u, semaphore.Inside u ↔ u = t ∨ s.semaphore.Inside u)
    (hholder : (s.pc t).isHolder = false) (hsema : (s.pc t).hasSemaphore = false) :
    Inv { s with semaphore := semaphore, pc := update s.pc t .downing } where
  owned := h.owned.imp fun _ howned => ⟨hvalue ▸ howned.value, howned.update hsema.symm⟩
  holder := h.isHolder_update hholder.symm
  awaited := hawaited
  inside := h.inside_update (fun u hu => by simp [hinside u, hu]) (by simp [hinside t])
  asserted := h.asserted_update (by simp)

/-- **A test of `sema_down`'s loop.** -/
theorem test (hsema : semaphore.sema = (s.semaphore.sema.down t).1) (hawaited : semaphore.Awaited)
    (hinside : ∀ u, semaphore.Inside u ↔
      u ≠ t ∧ s.semaphore.Inside u ∨ u = t ∧ s.semaphore.sema.value = 0)
    (hholder : (s.pc t).isHolder = false) (hhas : (s.pc t).hasSemaphore = false) :
    Inv { s with
      semaphore := semaphore
      pc := update s.pc t (afterTest (s.semaphore.sema.down t).2 .downing) } := by
  rcases Nat.eq_zero_or_pos s.semaphore.sema.value with hzero | hpos
  · rw [Semaphore.down_of_zero hzero] at hsema ⊢
    refine h.wait (by rw [hsema]) hawaited (fun u => ?_) hholder hhas
    rw [hinside u]
    grind
  · rw [Semaphore.down_of_pos hpos] at hsema ⊢
    refine h.take hpos (by rw [hsema]) hawaited (fun u => ?_) hholder
    rw [hinside u]
    grind

theorem semaDown (ht : s.pc t = .acquiring) : (s.apply (.semaDown t)).Inv := by
  have hout : ¬s.semaphore.Inside t := by
    rw [h.inside t, ht]
    simp
  refine h.test rfl (h.awaited.down hout) (fun u => ?_) (by rw [ht]; rfl) (by rw [ht]; rfl)
  rw [s.semaphore.inside_down t u]
  grind

theorem retry (ht : s.pc t = .downing) (hwoken : t ∈ s.semaphore.woken) :
    (s.apply (.retry t)).Inv :=
  h.test rfl (h.awaited.retry hwoken) (h.awaited.inside_retry hwoken) (by rw [ht]; rfl)
    (by rw [ht]; rfl)

theorem semaTryDown (ht : s.pc t = .tryAcquiring) : (s.apply (.semaTryDown t)).Inv := by
  have hout : ¬s.semaphore.Inside t := by
    rw [h.inside t, ht]
    simp
  rcases Nat.eq_zero_or_pos s.semaphore.sema.value with hzero | hpos
  · have hsame : s.semaphore.apply .tryDown = s.semaphore := by
      simp [Semaphore.Usage.apply, Semaphore.tryDown_of_zero hzero]
    simp only [apply, hsame, Semaphore.tryDown_of_zero hzero, afterTest]
    exact h.move (h.isHolder_update (by rw [ht]; rfl)) (by rw [ht]; rfl) (by rw [ht]; simp)
      (by simp) (by simp)
  · simp only [apply, Semaphore.tryDown_of_pos hpos, afterTest]
    refine h.take hpos ?_ h.awaited.tryDown (fun u => ?_) (by rw [ht]; rfl)
    · simp [Semaphore.Usage.apply, Semaphore.tryDown_of_pos hpos]
    · rw [s.semaphore.inside_tryDown u]
      grind

/-- **The owner ups the semaphore.** -/
theorem semaUp (ht : s.pc t = .upping) : (s.apply (.semaUp t)).Inv := by
  have hsema : (s.pc t).hasSemaphore = true := by rw [ht]; rfl
  obtain ⟨owner, howned⟩ := h.owned
  obtain rfl := (howned.hasSemaphore t).mp hsema
  have hzero : s.semaphore.sema.value = 0 := by
    have hvalue := howned.value
    simp only [Option.toList_some, List.length_singleton] at hvalue
    omega
  refine ⟨⟨none, ?_, fun u => ?_⟩, h.isHolder_update (by rw [ht]; rfl), h.awaited.up,
    h.inside_update (fun u _ => s.semaphore.inside_up u) ?_, h.asserted_update (by simp)⟩
  · show s.semaphore.sema.up.1.value + 0 = 1
    rw [Semaphore.up_value, hzero]
    rfl
  · show (update s.pc t .outside u).hasSemaphore = true ↔ none = some u
    by_cases hu : u = t
    · simp [hu, LockPc.hasSemaphore]
    · rw [update_of_ne hu, howned.hasSemaphore u]
      simp [Ne.symm hu]
  · show (s.semaphore.apply .up).Inside t ↔ _
    rw [s.semaphore.inside_up t, h.inside t, ht]
    simp

/-- `holder` is set by the owner. -/
theorem setHolder (ht : s.pc t = .taken) : (s.apply (.setHolder t)).Inv := by
  refine h.move (fun u => ?_) (by rw [ht]; rfl) (by rw [ht]; simp) (by simp) (by simp)
  by_cases hu : u = t
  · simp [hu, LockPc.isHolder]
  · rw [update_of_ne hu, h.isHolder_of_ne (by rw [ht]; rfl) hu]
    simp [Ne.symm hu]

/-- And cleared by the owner. -/
theorem clearHolder (ht : s.pc t = .releasing) : (s.apply (.clearHolder t)).Inv := by
  refine h.move (fun u => ?_) (by rw [ht]; rfl) (by rw [ht]; simp) (by simp) (by simp)
  by_cases hu : u = t
  · simp [hu, LockPc.isHolder]
  · rw [update_of_ne hu, h.isHolder_of_ne (by rw [ht]; rfl) hu]
    simp

theorem heldByCurrentThread_eq (t : T) :
    s.heldByCurrentThread t = (s.pc t).isHolder := by
  rw [Bool.eq_iff_iff, ← h.holder t]
  simp [heldByCurrentThread]

/-- **Every step keeps the invariant.** -/
theorem apply {e : LockEvent T} (he : s.Enabled e) : (s.apply e).Inv := by
  cases e with
  | callAcquire t | callTryAcquire t | callRelease t =>
    -- a thread outside is not the holder and one that holds the lock is: the assertion passes
    have ht : s.pc t = _ := he
    simp only [Locking.apply, h.heldByCurrentThread_eq t, ht]
    exact h.move (h.isHolder_update (by rw [ht]; rfl)) (by rw [ht]; rfl) (by rw [ht]; simp)
      (by simp [LockPc.isHolder]) (by simp [LockPc.isHolder])
  | setHolder t => exact h.setHolder he
  | clearHolder t => exact h.clearHolder he
  | semaDown t => exact h.semaDown he
  | retry t => exact h.retry he.1 he.2
  | semaTryDown t => exact h.semaTryDown he
  | semaUp t => exact h.semaUp he

end

end Inv

/-! ## Runs -/

/-- **Locks give mutual exclusion.**  In every state of every run at most one thread is
between the return of an acquire and the call of its release; the semaphore's value and
the number of threads that have taken it and not upped it add up to 1;
`lock_held_by_current_thread` holds of the threads that have set `holder` and not
cleared it; and no assertion has failed.  In every step it begins to hold of the thread
that sets `holder`, stops to hold of the one that clears it, and stays as it is for
every other one. -/
theorem mutual_exclusion {N : Nat} {state : Nat → Locking T} {label : Nat → LockEvent T}
    (hrun : system.Run N state label) :
    (∀ i, i ≤ N →
      (∀ t u, (state i).pc t = .holding → (state i).pc u = .holding → t = u) ∧
      (state i).semaphore.sema.value + {t | ((state i).pc t).hasSemaphore = true}.ncard = 1 ∧
      (∀ t, (state i).heldByCurrentThread t = true ↔
        (state i).pc t = .holding ∨ (state i).pc t = .releasing) ∧
      ∀ t, (state i).pc t ≠ .failed) ∧
    ∀ i, i < N → ∀ t, (state (i + 1)).heldByCurrentThread t = true ↔
      label i = .setHolder t ∨
        (state i).heldByCurrentThread t = true ∧ label i ≠ .clearHolder t := by
  have hinv : ∀ i, i ≤ N → (state i).Inv := fun i hi =>
    hrun.invariant inv_start (fun _ _ h he => h.apply he) hi
  refine ⟨fun i hi => ?_, fun i hi t => ?_⟩
  · have h := hinv i hi
    refine ⟨fun t u ht hu => ?_, h.value_add_ncard, fun t => ?_, h.asserted⟩
    · exact h.unique (by rw [hu]; rfl) (by rw [ht]; rfl)
    · rw [h.heldByCurrentThread_eq t]
      cases (state i).pc t <;> simp [LockPc.isHolder]
  · have h := hinv i (by omega)
    obtain ⟨henabled, heq⟩ := hrun.step i hi
    rw [heq]
    generalize label i = e at henabled
    cases e with
    | setHolder u =>
      -- nobody was the holder before
      have hu : (state i).pc u = .taken := henabled
      have hnone : (state i).heldByCurrentThread t = false := by
        rw [h.heldByCurrentThread_eq t]
        by_cases htu : t = u
        · rw [htu, hu]
          rfl
        · exact h.isHolder_of_ne (by rw [hu]; rfl) htu
      rw [hnone]
      simp [Locking.apply, heldByCurrentThread]
    | clearHolder u =>
      -- only `u` was
      have hu : (state i).pc u = .releasing := henabled
      have hholder : (state i).holder = some u := (h.holder u).mpr (by rw [hu]; rfl)
      simp [Locking.apply, heldByCurrentThread, hholder]
    | callAcquire u | semaDown u | retry u | callTryAcquire u | semaTryDown u | callRelease u
    | semaUp u => simp [Locking.apply, heldByCurrentThread]

/-- Thread 0 has the lock, thread 1 queues up, and is in turn the holder. -/
theorem mutual_exclusion_handover :
    let events : List (LockEvent (Fin 2)) :=
      [.callAcquire 0, .semaDown 0, .callAcquire 1, .semaDown 1, .setHolder 0, .callRelease 0,
       .clearHolder 0, .semaUp 0, .retry 1, .setHolder 1]
    let state := TransitionSystem.after apply start events
    system.Run 10 state (fun i => events.getD i (.callAcquire 0)) ∧
      (state 5).pc 0 = .holding ∧ (state 10).pc 1 = .holding ∧ ¬(state 10).pc 0 = .holding := by
  intro events state
  have henabled : ∀ i, i < 10 → (state i).Enabled (events.getD i (.callAcquire 0)) := by
    decide +kernel
  have hrun : system.Run 10 state fun i => events.getD i (.callAcquire 0) :=
    TransitionSystem.Run.of_labels events _ henabled
  have hone : (state 10).pc 1 = .holding := by decide +kernel
  refine ⟨hrun, by decide +kernel, hone, fun hzero => ?_⟩
  have := ((mutual_exclusion hrun).1 10 (Nat.le_refl 10)).1 0 1 hzero hone
  exact absurd this (by decide)

/-- **Nobody waits in vain for a free lock.**  In every reachable state in which a thread waits in
`lock_acquire`, some thread has the lock's semaphore, or there is an unblocked waiter that takes it
with its next step. -/
theorem free_lock_is_taken (hs : system.Reachable s) (ht : s.pc t = .downing) :
    (∃ u, (s.pc u).hasSemaphore = true) ∨
      ∃ u, s.Enabled (.retry u) ∧ (s.apply (.retry u)).pc u = .taken := by
  have h : s.Inv :=
    hs.invariant (fun _ h => h ▸ inv_start) fun _ _ _ h hstep => hstep.2 ▸ h.apply hstep.1
  obtain ⟨owner, howned⟩ := h.owned
  cases owner with
  | some u => exact .inl ⟨u, (howned.hasSemaphore u).mpr rfl⟩
  | none =>
    have hone : s.semaphore.sema.value = 1 := howned.value
    have hwoken : s.semaphore.woken ≠ [] := by
      intro hnil
      rcases (h.inside t).mpr ht with hmem | hmem
      · exact List.ne_nil_of_mem hmem hnil
      · have hle := h.awaited.retrying (List.ne_nil_of_mem hmem)
        rw [hone, hnil] at hle
        exact Nat.not_succ_le_zero 0 hle
    obtain ⟨u, hu⟩ := List.exists_mem_of_ne_nil _ hwoken
    refine .inr ⟨u, ⟨(h.inside u).mp (.inl hu), hu⟩, ?_⟩
    simp [apply, Semaphore.down_of_pos (hone ▸ Nat.one_pos), afterTest]

/-- Thread 1 queues up, and the lock is released. -/
theorem free_lock_is_taken_released : ∃ s : Locking (Fin 2), s.pc 1 = .downing ∧
    ∃ u, s.Enabled (.retry u) ∧ (s.apply (.retry u)).pc u = .taken := by
  let events : List (LockEvent (Fin 2)) :=
    [.callAcquire 0, .semaDown 0, .callAcquire 1, .semaDown 1, .setHolder 0, .callRelease 0,
     .clearHolder 0, .semaUp 0]
  let state := TransitionSystem.after apply start events
  have hrun : system.Run 8 state fun i => events.getD i (.retry 1) :=
    TransitionSystem.Run.of_labels events _ (by decide +kernel)
  have ht : (state 8).pc 1 = .downing := by decide +kernel
  have hnone : ¬∃ u, ((state 8).pc u).hasSemaphore = true := by decide +kernel
  exact ⟨state 8, ht, (free_lock_is_taken (hrun.reachable (Nat.le_refl 8)) ht).resolve_left hnone⟩

end Steps
end Locking
end Pintos
