import Pintos.Basic
import Pintos.TransitionSystem

/-!
# Semaphores

`threads/synch.c`.  A semaphore is a counter and a queue of waiting threads.
`sema_up` takes the first waiter from the queue, unblocks it and increments the
counter; the unblocked thread does not own that unit yet.  It tests the counter again
when it is scheduled, and a thread that calls `sema_down` or `sema_try_down` in the
meantime may take the unit first, in which case the unblocked one queues up again, at
the tail.

Every part that runs with interrupts off is one step: a test of `sema_down`'s loop
together with what follows from it (decrement, or queue and block), the whole of
`sema_try_down`, the whole of `sema_up`.  Between them anything may happen.  What
survives is that **the counter counts** and that **no wake-up is lost**
(`counts_exactly`): as long as someone waits, there are at least as many unblocked
threads about to test the counter as there are units to take.

The counter is an `unsigned`, so both hold only as long as it does not wrap around
(`wraps_around`).
-/

namespace Pintos
open List

/-- `struct semaphore`. -/
structure Semaphore (T : Type) where
  value : Nat
  waiters : List T
  deriving DecidableEq

namespace Semaphore
variable {T : Type}

/-- `sema_init`. -/
def init (value : Nat) : Semaphore T :=
  ⟨value, []⟩

/-- One test of the loop of `sema_down`, by thread `t`.  Either `t` takes a unit and
the call is over, or `t` is queued and blocks. -/
def down (sema : Semaphore T) (t : T) : Semaphore T × Bool :=
  if sema.value = 0 then
    ({ sema with waiters := sema.waiters ++ [t] }, false)
  else
    ({ sema with value := sema.value - 1 }, true)

/-- `sema_try_down`. -/
def tryDown (sema : Semaphore T) : Semaphore T × Bool :=
  if 0 < sema.value then
    ({ sema with value := sema.value - 1 }, true)
  else
    (sema, false)

/-- `sema_up`, with the thread it unblocks. -/
def up (sema : Semaphore T) : Semaphore T × Option T :=
  match sema.waiters with
  | [] => ({ sema with value := (sema.value + 1) % unsignedSize }, none)
  | t :: rest => ({ value := (sema.value + 1) % unsignedSize, waiters := rest }, some t)

variable {sema : Semaphore T}

theorem down_of_zero (h : sema.value = 0) (t : T) :
    sema.down t = ({ sema with waiters := sema.waiters ++ [t] }, false) :=
  if_pos h

theorem down_of_pos (h : 0 < sema.value) (t : T) :
    sema.down t = ({ sema with value := sema.value - 1 }, true) :=
  if_neg (by omega)

theorem tryDown_of_zero (h : sema.value = 0) :
    sema.tryDown = (sema, false) :=
  if_neg (by omega)

theorem tryDown_of_pos (h : 0 < sema.value) :
    sema.tryDown = ({ sema with value := sema.value - 1 }, true) :=
  if_pos h

@[simp] theorem up_value (sema : Semaphore T) :
    sema.up.1.value = (sema.value + 1) % unsignedSize := by
  unfold up
  cases sema.waiters <;> rfl

/-- Whoever `sema_up` unblocks was the first in the queue. -/
theorem up_waiters (sema : Semaphore T) : sema.up.2.toList ++ sema.up.1.waiters = sema.waiters := by
  unfold up
  cases h : sema.waiters with
  | nil => simp
  | cons t rest => rfl

/-! ## A semaphore in use -/

/-- **A semaphore in use.**  `woken` are the threads `sema_up` has unblocked that have
not tested the value again; `ups` and `downs` count the calls completed, for `downs`
also the successful `sema_try_down`s.  The code has no counterpart of these three. -/
structure Usage (T : Type) where
  sema : Semaphore T
  woken : List T
  ups : Nat
  downs : Nat
  deriving DecidableEq

/-- The interrupts-off sections. -/
inductive Event (T : Type) where
  /-- `t` calls `sema_down` and tests the value for the first time. -/
  | down (t : T)
  /-- `t` returns from `thread_block` and tests the value again. -/
  | retry (t : T)
  | tryDown
  | up
  deriving DecidableEq

namespace Usage

def start (v0 : Nat) : Usage T where
  sema := .init v0
  woken := []
  ups := 0
  downs := 0

/-- The thread is in the middle of a `sema_down`: queued, or unblocked and about to
test the value again. -/
def Inside (s : Usage T) (t : T) : Prop :=
  t ∈ s.woken ∨ t ∈ s.sema.waiters

/-- A thread in the middle of a `sema_down` makes no other call; only an unblocked one
returns from `thread_block`. -/
def Enabled (s : Usage T) : Event T → Prop
  | .down t => ¬s.Inside t
  | .retry t => t ∈ s.woken
  | .tryDown | .up => True

instance [DecidableEq T] (s : Usage T) : ∀ e, Decidable (s.Enabled e)
  | .down _ => inferInstanceAs (Decidable ¬(_ ∨ _))
  | .retry _ => inferInstanceAs (Decidable (_ ∈ _))
  | .tryDown | .up => inferInstanceAs (Decidable True)

def apply [DecidableEq T] (s : Usage T) : Event T → Usage T
  | .down t =>
    { s with sema := (s.sema.down t).1, downs := s.downs + (s.sema.down t).2.toNat }
  | .retry t =>
    { s with
      sema := (s.sema.down t).1
      woken := s.woken.erase t
      downs := s.downs + (s.sema.down t).2.toNat }
  | .tryDown =>
    { s with sema := s.sema.tryDown.1, downs := s.downs + s.sema.tryDown.2.toNat }
  | .up =>
    { s with
      sema := s.sema.up.1
      woken := s.woken ++ s.sema.up.2.toList
      ups := s.ups + 1 }

/-- The event does not make the counter wrap around. -/
def Fits (s : Usage T) : Event T → Prop
  | .up => s.sema.value + 1 < unsignedSize
  | .down _ | .retry _ | .tryDown => True

instance (s : Usage T) : ∀ e, Decidable (s.Fits e)
  | .up => inferInstanceAs (Decidable (_ < _))
  | .down _ | .retry _ | .tryDown => inferInstanceAs (Decidable True)

/-! ## The invariant -/

/-- **No wake-up is lost**: nobody is both queued and unblocked, or so twice, and while
somebody is queued the units that are left are at most as many as the threads about to
test for them. -/
structure Awaited (s : Usage T) : Prop where
  nodup : (s.woken ++ s.sema.waiters).Nodup
  retrying : s.sema.waiters ≠ [] → s.sema.value ≤ s.woken.length

/-- **The counter counts** the calls. -/
def Counts (v0 : Nat) (s : Usage T) : Prop :=
  s.sema.value + s.downs = v0 + s.ups

theorem awaited_start (v0 : Nat) : (start v0 : Usage T).Awaited where
  nodup := nodup_nil
  retrying h := absurd rfl h

section Steps
variable [DecidableEq T] {s : Usage T}

section
variable (h : s.Awaited)
include h

/-- **A first test** of the counter: whoever queues up finds it 0. -/
theorem Awaited.down {t : T} (ht : s.Enabled (.down t)) :
    (s.apply (.down t)).Awaited := by
  rcases Nat.eq_zero_or_pos s.sema.value with hzero | hpos
  · simp only [apply, down_of_zero hzero]
    refine ⟨?_, fun _ => by simp [hzero]⟩
    rw [← append_assoc]
    apply nodup_append.mpr
    refine ⟨h.nodup, by simp, ?_⟩
    rintro u hu v hv rfl
    rw [mem_singleton.mp hv] at hu
    exact ht (mem_append.mp hu)
  · simp only [apply, down_of_pos hpos]
    refine ⟨h.nodup, fun hne => ?_⟩
    have hle := h.retrying hne
    show s.sema.value - 1 ≤ s.woken.length
    omega

/-- **Another test**, by an unblocked thread: there is one such thread less, and if it
takes a unit, there is one unit less. -/
theorem Awaited.retry {t : T} (ht : t ∈ s.woken) :
    (s.apply (.retry t)).Awaited := by
  rcases Nat.eq_zero_or_pos s.sema.value with hzero | hpos
  · simp only [apply, down_of_zero hzero]
    refine ⟨?_, fun _ => by simp [hzero]⟩
    -- `t` only changes its place, from the unblocked to the tail of the queue
    have hperm : List.Perm (s.woken ++ s.sema.waiters)
        (s.woken.erase t ++ (s.sema.waiters ++ [t])) :=
      calc s.woken ++ s.sema.waiters
        _ |>.Perm ((t :: s.woken.erase t) ++ s.sema.waiters) :=
          (perm_cons_erase ht).append_right _
        _ |>.Perm ((s.woken.erase t ++ s.sema.waiters) ++ [t]) :=
          (perm_append_singleton t _).symm
        _ |>.Perm (s.woken.erase t ++ (s.sema.waiters ++ [t])) := by
          rw [append_assoc]
    exact hperm.nodup_iff.mp h.nodup
  · simp only [apply, down_of_pos hpos]
    refine ⟨h.nodup.sublist (erase_sublist.append_right _), fun hne => ?_⟩
    have hle := h.retrying hne
    have hlength := length_erase_of_mem ht
    show s.sema.value - 1 ≤ (s.woken.erase t).length
    omega

theorem Awaited.tryDown : (s.apply .tryDown).Awaited := by
  rcases Nat.eq_zero_or_pos s.sema.value with hzero | hpos
  · simp only [apply, tryDown_of_zero hzero]
    exact ⟨h.nodup, h.retrying⟩
  · simp only [apply, tryDown_of_pos hpos]
    refine ⟨h.nodup, fun hne => ?_⟩
    have hle := h.retrying hne
    show s.sema.value - 1 ≤ s.woken.length
    omega

/-- **A unit is added**, and if there is a queue, so is an unblocked thread. -/
theorem Awaited.up : (s.apply .up).Awaited := by
  have hwaiters := s.sema.up_waiters
  refine ⟨?_, fun hne => ?_⟩
  · show (s.woken ++ s.sema.up.2.toList ++ s.sema.up.1.waiters).Nodup
    rw [append_assoc, hwaiters]
    exact h.nodup
  · show s.sema.up.1.value ≤ (s.woken ++ s.sema.up.2.toList).length
    cases hqueue : s.sema.waiters with
    | nil =>
      rw [hqueue] at hwaiters
      exact absurd (append_eq_nil_iff.mp hwaiters).2 hne
    | cons t rest =>
      have hle := h.retrying (by simp [hqueue])
      have hmod : (s.sema.value + 1) % unsignedSize ≤ s.sema.value + 1 := Nat.mod_le _ _
      have hwoken : s.sema.up.2 = some t := by simp [Semaphore.up, hqueue]
      simp only [up_value, hwoken, Option.toList_some, length_append, length_singleton]
      omega

/-- **Every step keeps the wake-ups**, whether or not the counter wraps around. -/
theorem Awaited.apply {e : Event T} (he : s.Enabled e) : (s.apply e).Awaited := by
  cases e with
  | down t => exact h.down he
  | retry t => exact h.retry he
  | tryDown => exact h.tryDown
  | up => exact h.up

end

/-- **Every step that fits keeps the count.** -/
theorem Counts.apply {v0 : Nat} (h : s.Counts v0) {e : Event T} (he : s.Fits e) :
    (s.apply e).Counts v0 := by
  unfold Counts at h ⊢
  have hdown : ∀ t, (s.sema.down t).1.value + (s.sema.down t).2.toNat = s.sema.value := by
    intro t
    unfold Semaphore.down
    split
    · simp
    · simp only [Bool.toNat_true]
      omega
  have htryDown : s.sema.tryDown.1.value + s.sema.tryDown.2.toNat = s.sema.value := by
    unfold Semaphore.tryDown
    split
    · simp only [Bool.toNat_true]
      omega
    · simp
  cases e with
  | down t | retry t =>
    have := hdown t
    simp only [Usage.apply]
    omega
  | tryDown =>
    simp only [Usage.apply]
    omega
  | up =>
    have hlt : s.sema.value + 1 < unsignedSize := he
    simp only [Usage.apply, up_value, Nat.mod_eq_of_lt hlt]
    omega

/-! ## Who is in the middle of a `sema_down` -/

theorem inside_down (s : Usage T) (t u : T) :
    (s.apply (.down t)).Inside u ↔ s.Inside u ∨ u = t ∧ s.sema.value = 0 := by
  rcases Nat.eq_zero_or_pos s.sema.value with hzero | hpos
  · simp [Inside, apply, down_of_zero hzero, hzero, or_assoc]
  · simp [Inside, apply, down_of_pos hpos, Nat.ne_of_gt hpos]

/-- An unblocked thread leaves, unless it finds the value 0. -/
theorem Awaited.inside_retry (h : s.Awaited) {t : T} (ht : t ∈ s.woken) (u : T) :
    (s.apply (.retry t)).Inside u ↔ u ≠ t ∧ s.Inside u ∨ u = t ∧ s.sema.value = 0 := by
  obtain ⟨hwoken, -, hapart⟩ := nodup_append.mp h.nodup
  have herase : u ∈ s.woken.erase t ↔ u ≠ t ∧ u ∈ s.woken := hwoken.mem_erase_iff
  rcases Nat.eq_zero_or_pos s.sema.value with hzero | hpos
  · simp only [Inside, Usage.apply, down_of_zero hzero, herase, mem_append,
      mem_singleton]
    grind
  · simp only [Inside, Usage.apply, down_of_pos hpos, herase]
    grind

theorem inside_tryDown (s : Usage T) (u : T) : (s.apply .tryDown).Inside u ↔ s.Inside u := by
  rcases Nat.eq_zero_or_pos s.sema.value with hzero | hpos
  · simp [Inside, apply, tryDown_of_zero hzero]
  · simp [Inside, apply, tryDown_of_pos hpos]

theorem inside_up (s : Usage T) (u : T) : (s.apply .up).Inside u ↔ s.Inside u := by
  simp only [Inside, ← mem_append]
  show u ∈ s.woken ++ s.sema.up.2.toList ++ s.sema.up.1.waiters ↔ _
  rw [append_assoc, up_waiters]

end Steps
end Usage

/-! ## Runs -/

/-- A semaphore with the initial value `v0`, used by any threads. -/
def usage [DecidableEq T] (v0 : Nat) : TransitionSystem (Usage T) (Event T) :=
  .guarded (.start v0) Usage.Enabled Usage.apply

/-- **Semaphores count exactly and lose no wake-up.**  In every run in which no
`sema_up` finds the largest value an `unsigned` can have: the value is the initial
one, plus the ups, minus the downs, of which there are never too many; and while
threads are queued, at least `value` others are unblocked and about to test it, so
that units, a queue, and nobody about to test do not come together. -/
theorem counts_exactly [DecidableEq T] {v0 N : Nat} {state : Nat → Usage T} {label : Nat → Event T}
    (hrun : (usage v0).Run N state label) (hfits : ∀ t, t < N → (state t).Fits (label t))
    {t : Nat} (ht : t ≤ N) :
    ((state t).sema.value : Int) = v0 + (state t).ups - (state t).downs ∧
    (state t).downs ≤ v0 + (state t).ups ∧
    (state t).woken.Nodup ∧
    ((state t).sema.waiters ≠ [] → (state t).sema.value ≤ (state t).woken.length) ∧
    ¬(0 < (state t).sema.value ∧ (state t).sema.waiters ≠ [] ∧ (state t).woken = []) := by
  have hkept : (state t).Awaited ∧ (state t).Counts v0 :=
    hrun.invariant (P := fun s => s.Awaited ∧ s.Counts v0) ⟨Usage.awaited_start v0, rfl⟩
      (fun u hu h henabled => ⟨h.1.apply henabled, h.2.apply (hfits u hu)⟩) ht
  obtain ⟨hawaited, hcounts⟩ := hkept
  unfold Usage.Counts at hcounts
  refine ⟨by omega, by omega, (nodup_append.mp hawaited.nodup).1, hawaited.retrying, ?_⟩
  rintro ⟨hpos, hqueue, hwoken⟩
  have hle := hawaited.retrying hqueue
  rw [hwoken, length_nil] at hle
  omega

/-- Thread 0 is woken, thread 1 takes the unit, and thread 0 queues up again. -/
theorem counts_exactly_barging :
    let events : List (Event (Fin 2)) := [.down 0, .up, .down 1, .retry 0]
    let state := TransitionSystem.after Usage.apply (.start 0) events
    (usage 0).Run 4 state (fun t => events.getD t .up) ∧
      ((state 4).sema.value : Int) = 0 + 1 - 1 ∧ (state 4).sema.waiters = [0] := by
  intro events state
  have henabled : ∀ t, t < 4 → (state t).Enabled (events.getD t .up) := by decide
  have hrun : (usage 0).Run 4 state fun t => events.getD t .up :=
    TransitionSystem.Run.of_labels events .up henabled
  exact ⟨hrun, (counts_exactly hrun (by decide) (Nat.le_refl 4)).1, by decide⟩

/-- **The counter wraps around**: at the largest value, one `sema_up` leaves 0. -/
theorem wraps_around :
    ∃ state : Nat → Usage (Fin 1), ∃ label,
      (usage (unsignedSize - 1)).Run 1 state label ∧ (state 1).ups = 1 ∧ (state 1).downs = 0 ∧
      (state 1).sema.value = 0 := by
  refine ⟨TransitionSystem.after Usage.apply (.start (unsignedSize - 1)) [.up], fun _ => .up,
    ⟨rfl, fun t ht => ?_⟩, rfl, rfl, by decide⟩
  obtain rfl : t = 0 := by omega
  exact ⟨trivial, rfl⟩

end Semaphore
end Pintos
