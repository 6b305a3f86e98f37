import Pintos.ThreadPlaces

/-!
# The scheduler's queues

Every function of the kernel, called in a state in which each thread has its place
(`Kernel.Inv`), succeeds and leaves such a state (`Safe`).  There is one lemma for each
function; what the blocking ones have in common is that the current thread leaves for
another place and `schedule` switches to the next thread (`Inv.leave`), what the waking
ones have in common is that a thread goes from its list to `ready_list` (`Inv.wake`).

`queue_invariant` reads the statements about lists and statuses off the places, and
says that no assertion fails.
-/

namespace Pintos
open Function (update)

namespace Kernel
variable {T S : Type}

/-! ## The functions -/

section Functions
variable {B : Boot T} {k k₁ k₂ : Kernel T S} {place : T → Place S} {t : T} {p : Place S}
  {q : ThreadQueue S}

section
variable (h : k.Inv B place)
include h

/-- What places do not depend on may change. -/
theorem Inv.congr (hstatus : k₁.status = k.status) (hqueue : k₁.queue = k.queue)
    (hcreating : k₁.creating = k.creating) (hrunning : k₁.runningThread = k.runningThread) :
    k₁.Inv B place where
  status := hstatus ▸ h.status
  mem := hqueue ▸ h.mem
  nodup := hqueue ▸ h.nodup
  allowed := h.allowed
  created := hcreating ▸ h.created
  creator := hcreating ▸ h.creator
  running := hrunning ▸ h.running

theorem Inv.current : place k.runningThread = .off .running :=
  (h.running _).mpr rfl

theorem Inv.current_isThread : k.IsThread k.runningThread :=
  h.isThread (by simp [h.current]) (by simp [h.current])

theorem Inv.current_running : k.status k.runningThread = some .running := by
  rw [h.status, h.current]
  rfl

theorem Safe.of_inv : Safe B (some k) :=
  ⟨k, rfl, place, h⟩

end

theorem Safe.bind {result : Option (Kernel T S)} {f : Kernel T S → Option (Kernel T S)}
    (h : Safe B result) (hf : ∀ k place, k.Inv B place → Safe B (f k)) :
    Safe B (result.bind f) := by
  obtain ⟨k, rfl, place, hk⟩ := h
  exact hf k place hk

/-- The lists after a change to a semaphore. -/
theorem queue_setSemaphore [DecidableEq S] (k : Kernel T S) (s : S) (sema : Semaphore T)
    (q : ThreadQueue S) :
    (k.setSemaphore s sema).queue q = if q = .waiters s then sema.waiters else k.queue q := by
  cases q with
  | waiters s' =>
    by_cases hs : s' = s
    · subst hs
      simp [queue, setSemaphore]
    · simp [queue, setSemaphore, hs]
  | ready | sleep | blocked | freed => simp [queue, setSemaphore]

/-- Only the value of a semaphore changes. -/
theorem Inv.setSemaphore [DecidableEq S] (h : k.Inv B place) {s : S} {sema : Semaphore T}
    (hwaiters : sema.waiters = (k.semaphores s).waiters) :
    (k.setSemaphore s sema).Inv B place := by
  refine h.congr rfl (funext fun q => ?_) rfl rfl
  rw [queue_setSemaphore]
  split
  · next hq =>
    rw [hq, hwaiters]
    rfl
  · rfl

theorem Inv.semaTryDown [DecidableEq S] (h : k.Inv B place) (s : S) : Safe B (k.semaTryDown s) := by
  apply Safe.of_inv
  apply h.setSemaphore
  unfold Semaphore.tryDown
  split <;> rfl

variable [DecidableEq T]

theorem Inv.threadCurrent (h : k.Inv B place) : k.threadCurrent = some k.runningThread :=
  threadCurrent_eq h.current_isThread h.current_running

/-- **The current thread leaves** for the place `p`, and another one is switched to. -/
theorem Inv.leave (h : k.Inv B place) (hreaped : k₁.reaped B = k₂) (hrunning : p ≠ .off .running)
    (hcreated : p ≠ .created) (hstatus : k₂.status = update k.status k.runningThread p.status)
    (hsame : ∀ q, p ≠ .on q → k₂.queue q = k.queue q)
    (hjoin : ∀ q, p = .on q → k₂.queue q = k.queue q ++ [k.runningThread])
    (hcreating : k₂.creating = k.creating) (hallowed : p.Allowed B k.runningThread) :
    Safe B (k₁.schedule B) := by
  subst hreaped
  have hplaced : (k₁.reaped B).Placed B (update place k.runningThread p) := by
    refine h.toPlaced.move (h.current.trans_ne hrunning.symm) (fun q _ => hsame q)
      (fun q hfrom => ?_) hjoin hstatus hallowed ?_ ?_
    · rw [h.current] at hfrom
      cases hfrom
    · rw [hcreating]
      exact h.created_update (by simp [h.current]) hcreated
    · rw [hcreating]
      exact h.creator
  have hnone : ∀ t, update place k.runningThread p t ≠ .off .running := by
    intro t
    by_cases ht : t = k.runningThread
    · rwa [ht, Function.update_self]
    · rw [Function.update_of_ne ht, Ne, h.running t]
      exact ht
  exact ⟨_, hplaced.schedule hnone, _, hplaced.switched hnone⟩

/-- It leaves for a list. -/
theorem Inv.join (h : k.Inv B place) (hreaped : k₁.reaped B = k₂)
    (hstatus : k₂.status = update k.status k.runningThread (some q.status))
    (hjoin : k₂.queue q = k.queue q ++ [k.runningThread])
    (hsame : ∀ q', q' ≠ q → k₂.queue q' = k.queue q') (hcreating : k₂.creating = k.creating)
    (hallowed : (Place.on q).Allowed B k.runningThread) : Safe B (k₁.schedule B) := by
  refine h.leave (p := .on q) hreaped (by simp) (by simp) hstatus (fun q' hne => ?_) ?_ hcreating
    hallowed
  · exact hsame q' fun heq => hne (by rw [heq])
  · rintro q' ⟨⟩
    exact hjoin

/-- It is on no list afterwards. -/
theorem Inv.park (h : k.Inv B place) {status : ThreadStatus} (hne : status ≠ .running)
    (hreaped : (k.setStatus k.runningThread status).reaped B = k.setStatus k.runningThread status)
    (hallowed : (Place.off status : Place S).Allowed B k.runningThread) :
    Safe B ((k.setStatus k.runningThread status).schedule B) := by
  refine h.leave (p := .off status) hreaped (by simp [hne]) (by simp) rfl (fun _ _ => rfl) ?_ rfl
    hallowed
  rintro q ⟨⟩

theorem reaped_setStatus {status : ThreadStatus} (hne : status ≠ .dying)
    (ht : k.runningThread = t) : (k.setStatus t status).reaped B = k.setStatus t status := by
  apply if_neg
  rintro ⟨hdying, -⟩
  simp [setStatus, ht, hne] at hdying

section
variable (h : k.Inv B place)
include h

/-- **`thread_block`**, by a thread that has put itself on the list `q`. -/
theorem Inv.threadBlock (hidle : k.runningThread ≠ B.idle) (hq : q.status = .blocked)
    (hstatus : k₁.status = k.status) (hrunning : k₁.runningThread = k.runningThread)
    (hcreating : k₁.creating = k.creating) (hfreed : k₁.freed = k.freed)
    (hjoin : k₁.queue q = k.queue q ++ [k.runningThread])
    (hsame : ∀ q', q' ≠ q → k₁.queue q' = k.queue q') : Safe B (k₁.threadBlock B) := by
  have hcurrent : k₁.threadCurrent = some k.runningThread := by
    rw [← hrunning]
    apply threadCurrent_eq
    · rw [IsThread, hstatus, hrunning, hfreed]
      exact h.current_isThread
    · rw [hstatus, hrunning]
      exact h.current_running
  simp only [Kernel.threadBlock, hcurrent, some_bind]
  apply h.join (q := q) (reaped_setStatus (by simp) hrunning)
  · rw [hq, ← hstatus]
    rfl
  · exact hjoin
  · exact hsame
  · exact hcreating
  · cases q with
    | ready | freed => simp [ThreadQueue.status] at hq
    | waiters s | sleep | blocked => exact hidle

/-- The idle thread blocks without being on a list. -/
theorem Inv.idleBlock (hidle : k.runningThread = B.idle) :
    Safe B (k.threadBlock B) := by
  simp only [Kernel.threadBlock, h.threadCurrent, some_bind]
  exact h.park (by simp) (reaped_setStatus (by simp) rfl) hidle

/-- **`thread_yield`.**  The idle thread is ready without being on `ready_list`. -/
theorem Inv.threadYield : Safe B (k.threadYield B) := by
  simp only [Kernel.threadYield, h.threadCurrent, some_bind]
  by_cases hidle : k.runningThread = B.idle
  · rw [if_pos hidle]
    exact h.park (by simp) (reaped_setStatus (by simp) rfl) hidle
  · rw [if_neg hidle]
    refine h.join (q := .ready) (reaped_setStatus (by simp) rfl) rfl rfl (fun q hne => ?_) rfl hidle
    cases q with
    | ready => exact absurd rfl hne
    | waiters s | sleep | blocked | freed => rfl

/-- **`thread_exit`.**  The page of the initial thread is not freed. -/
theorem Inv.threadExit (hidle : k.runningThread ≠ B.idle) :
    Safe B (k.threadExit B) := by
  simp only [Kernel.threadExit, h.threadCurrent, some_bind]
  by_cases hinitial : k.runningThread = B.initial
  · exact h.park (by simp) (if_neg fun hreap => hreap.2 hinitial) hinitial
  · refine h.join (q := .freed) (if_pos ⟨by simp [setStatus], hinitial⟩) rfl rfl
      (fun q hne => ?_) rfl ⟨hidle, hinitial⟩
    cases q with
    | freed => exact absurd rfl hne
    | ready | waiters s | sleep | blocked => rfl

/-- **`thread_unblock`**, of a thread that has been taken from its list. -/
theorem Inv.wake (hq : q.status = .blocked) (ht : place t = .on q)
    (hleave : k₁.queue q = (k.queue q).erase t) (hsame : ∀ q', q' ≠ q → k₁.queue q' = k.queue q')
    (hstatus : k₁.status = k.status) (hrunning : k₁.runningThread = k.runningThread)
    (hcreating : k₁.creating = k.creating) (hfreed : k₁.freed = k.freed) :
    k₁.threadUnblock t = some (k₁.makeReady t) ∧
      (k₁.makeReady t).Inv B (update place t (.on .ready)) := by
  obtain ⟨hunblock, hplaced⟩ := h.toPlaced.wake hq ht hstatus hfreed hcreating hleave hsame
  refine ⟨hunblock, hplaced, ?_⟩
  show ∀ u, _ ↔ u = k₁.runningThread
  rw [hrunning]
  exact h.running_update (by simp [ht]) (by simp)

/-- **`unblock_threads`**, by induction on the threads that are left. -/
theorem Inv.unblockLoop {l : List T} (hl : k.blockedThreads = l) :
    Safe B (unblockLoop l k) := by
  induction l generalizing k place with
  | nil => exact .of_inv h
  | cons t rest ih =>
    have ht : place t = .on .blocked := (h.mem .blocked t).mp (by simp [queue, hl])
    let k₁ : Kernel T S := { k with blockedThreads := rest }
    have hsame : ∀ q, q ≠ .blocked → k₁.queue q = k.queue q := by
      intro q hne
      cases q with
      | blocked => exact absurd rfl hne
      | ready | waiters s | sleep | freed => rfl
    have hleave : k₁.queue .blocked = (k.queue .blocked).erase t := by simp [k₁, queue, hl]
    obtain ⟨hunblock, hinv⟩ := h.wake rfl ht hleave hsame rfl rfl rfl rfl
    show Safe B ((k₁.threadUnblock t).bind fun k => Kernel.unblockLoop rest k)
    rw [hunblock]
    exact ih hinv rfl

/-- **`thread_wakeup`**, by induction on the elements that have not been looked at. -/
theorem Inv.wakeupLoop (tick : Int) {l : List T} (hnodup : l.Nodup) (hl : ∀ t ∈ l, t ∈ k.sleepList) :
    Safe B (wakeupLoop tick l k) := by
  induction l generalizing k place with
  | nil => exact .of_inv h
  | cons t rest ih =>
    obtain ⟨hnotin, hrest⟩ := List.nodup_cons.mp hnodup
    unfold Kernel.wakeupLoop
    split
    · have ht : place t = .on .sleep := (h.mem .sleep t).mp (hl t List.mem_cons_self)
      let k₁ : Kernel T S := { k with sleepList := k.sleepList.erase t }
      have hsame : ∀ q, q ≠ .sleep → k₁.queue q = k.queue q := by
        intro q hne
        cases q with
        | sleep => exact absurd rfl hne
        | ready | waiters s | blocked | freed => rfl
      have hleave : k₁.queue .sleep = (k.queue .sleep).erase t := rfl
      obtain ⟨hunblock, hinv⟩ := h.wake rfl ht hleave hsame rfl rfl rfl rfl
      show Safe B ((k₁.threadUnblock t).bind fun k => Kernel.wakeupLoop tick rest k)
      rw [hunblock]
      refine ih hinv hrest fun u hu => ?_
      have hne : u ≠ t := fun heq => hnotin (heq ▸ hu)
      exact (List.mem_erase_of_ne hne).mpr (hl u (List.mem_cons_of_mem t hu))
    · exact ih (h.congr rfl rfl rfl rfl) hrest fun u hu => hl u (List.mem_cons_of_mem t hu)

theorem Inv.threadWakeup (tick : Int) : Safe B (k.threadWakeup tick) := by
  have hreset : Inv B { k with nextTickToWakeup := int64Max } place := h.congr rfl rfl rfl rfl
  exact hreset.wakeupLoop tick (h.nodup .sleep) fun _ ht => ht

theorem Inv.threadSleep (hidle : k.runningThread ≠ B.idle) (tick : Int) :
    Safe B (k.threadSleep B tick) := by
  simp only [Kernel.threadSleep, h.threadCurrent, assert_of hidle, some_bind]
  refine h.threadBlock hidle (q := .sleep) rfl rfl rfl rfl rfl rfl fun q hne => ?_
  cases q with
  | sleep => exact absurd rfl hne
  | ready | waiters s | blocked | freed => rfl

theorem Inv.wakeupDue : Safe B k.wakeupDue := by
  unfold Kernel.wakeupDue
  split
  · exact h.threadWakeup _
  · exact .of_inv h

theorem Inv.timerInterrupt : Safe B (k.timerInterrupt B) := by
  have hticked : Inv B { k with ticks := k.ticks + 1 } place := h.congr rfl rfl rfl rfl
  simp only [Kernel.timerInterrupt, threadTick, hticked.threadCurrent, some_bind, pure]
  refine Safe.bind ?_ fun k' place' h' => ?_
  · have htick : Inv B { k with
        ticks := k.ticks + 1
        threadTicks := k.threadTicks + 1 } place := h.congr rfl rfl rfl rfl
    exact htick.wakeupDue
  · split
    · exact h'.threadYield
    · exact .of_inv h'

theorem Inv.blockThread (hidle : k.runningThread ≠ B.idle) :
    Safe B (k.blockThread B) := by
  simp only [Kernel.blockThread, h.threadCurrent, some_bind]
  refine h.threadBlock hidle (q := .blocked) rfl rfl rfl rfl rfl rfl fun q hne => ?_
  cases q with
  | blocked => exact absurd rfl hne
  | ready | waiters s | sleep | freed => rfl

/-- **The construction of a thread begins.** -/
theorem Inv.threadCreate (hnew : k.status t = none) (hcreating : k.creating k.runningThread = none) :
    Safe B (k.threadCreate t) := by
  have hunused : place t = .unused := by
    rw [h.status t] at hnew
    cases hp : place t with
    | unused => rfl
    | created | on q | off st => simp [hp, Place.status] at hnew
  have hnot : ∀ c, k.creating c ≠ some t := by
    intro c hc
    have hcreated := (h.created t).mpr ⟨c, hc⟩
    simp [hunused] at hcreated
  obtain ⟨hcreated, hcreator⟩ := h.begin_create hcreating hnot
  simp only [Kernel.threadCreate, h.threadCurrent, some_bind]
  refine ⟨_, rfl, update place t .created, h.toPlaced.move ?_ ?_ ?_ ?_ rfl ?_ hcreated hcreator,
    h.running_update (by simp [hunused]) (by simp)⟩
  · simp [hunused]
  · intro q _ _
    rfl
  · intro q hfrom
    simp [hunused] at hfrom
  · rintro q ⟨⟩
  · have hallowed := h.allowed t
    rwa [hunused] at hallowed

/-- **The new thread becomes ready.** -/
theorem Inv.threadCreateEnd (hcreating : k.creating k.runningThread ≠ none) :
    Safe B k.threadCreateEnd := by
  obtain ⟨t, ht⟩ := Option.ne_none_iff_exists'.mp hcreating
  have hplace : place t = .created := (h.created t).mpr ⟨_, ht⟩
  obtain ⟨hcreated, hcreator⟩ := h.end_create (p := .on .ready) ht (by simp)
  simp only [Kernel.threadCreateEnd, h.threadCurrent, ht, some_bind]
  refine ⟨_, threadUnblock_eq ?_ ?_, update place t (.on .ready),
    h.toPlaced.move ?_ ?_ ?_ ?_ rfl ?_ hcreated hcreator,
    h.running_update (by simp [hplace]) (by simp)⟩
  · exact h.isThread (by simp [hplace]) (by simp [hplace])
  · show k.status t = _
    rw [h.status t, hplace]
    rfl
  · simp [hplace]
  · intro q _ hto
    cases q with
    | ready => exact absurd rfl hto
    | waiters s | sleep | blocked | freed => rfl
  · intro q hfrom
    simp [hplace] at hfrom
  · rintro q ⟨⟩
    rfl
  · have hallowed := h.allowed t
    rwa [hplace] at hallowed

end

section Semaphores
variable [DecidableEq S]

theorem Inv.semaDown (h : k.Inv B place) (hidle : k.runningThread ≠ B.idle) (s : S) :
    Safe B (k.semaDown B s) := by
  rcases Nat.eq_zero_or_pos (k.semaphores s).value with hzero | hpos
  · simp only [Kernel.semaDown, Semaphore.down_of_zero hzero]
    refine h.threadBlock hidle (q := .waiters s) rfl rfl rfl rfl rfl ?_ fun q hne => ?_
    · rw [queue_setSemaphore, if_pos rfl]
      rfl
    · rw [queue_setSemaphore, if_neg hne]
  · simp only [Kernel.semaDown, Semaphore.down_of_pos hpos]
    exact .of_inv (h.setSemaphore rfl)

theorem Inv.semaUp (h : k.Inv B place) (s : S) : Safe B (k.semaUp s) := by
  unfold Kernel.semaUp Semaphore.up
  cases hwaiters : (k.semaphores s).waiters with
  | nil => exact .of_inv (h.setSemaphore hwaiters.symm)
  | cons t rest =>
    have ht : place t = .on (.waiters s) := (h.mem (.waiters s) t).mp (by simp [queue, hwaiters])
    let sema : Semaphore T := ⟨((k.semaphores s).value + 1) % unsignedSize, rest⟩
    have hleave : (k.setSemaphore s sema).queue (.waiters s) =
        (k.queue (.waiters s)).erase t := by
      rw [queue_setSemaphore, if_pos rfl]
      simp [sema, queue, hwaiters]
    have hsame : ∀ q, q ≠ .waiters s → (k.setSemaphore s sema).queue q = k.queue q := by
      intro q hne
      rw [queue_setSemaphore, if_neg hne]
    obtain ⟨hunblock, hinv⟩ := h.wake rfl ht hleave hsame rfl rfl rfl rfl
    exact ⟨_, hunblock, _, hinv⟩

/-! ## Runs -/

/-- **Every step keeps the invariant**, and no assertion fails in it. -/
theorem Inv.apply (h : k.Inv B place) {e : KernelEvent T S} (he : k.Enabled B e) :
    Safe B (k.apply B e) := by
  cases e with
  | threadCreate t => exact h.threadCreate he.2.1 he.2.2
  | threadCreateEnd => exact h.threadCreateEnd he
  | threadYield => exact h.threadYield
  | threadExit => exact h.threadExit he.1
  | threadSleep tick => exact h.threadSleep he tick
  | timerSleep ticks =>
    simp only [Kernel.apply, timerSleep, h.threadCurrent, some_bind]
    exact .of_inv (h.congr rfl rfl rfl rfl)
  | timerSleepEnd =>
    obtain ⟨tick, htick⟩ := Option.ne_none_iff_exists'.mp he.2
    simp only [Kernel.apply, timerSleepEnd, h.threadCurrent, htick, some_bind]
    have hcleared : Inv B { k with
        timerSleeping := update k.timerSleeping k.runningThread none } place :=
      h.congr rfl rfl rfl rfl
    exact hcleared.threadSleep he.1 tick
  | semaDown s => exact h.semaDown he s
  | semaTryDown s => exact h.semaTryDown s
  | semaUp s => exact h.semaUp s
  | blockThread => exact h.blockThread he
  | unblockThreads => exact h.unblockLoop rfl
  | timerInterrupt => exact h.timerInterrupt
  | idleBlock => exact h.idleBlock he

omit [DecidableEq S] in
/-- **The start**: the initial thread is running, the idle thread is off its list, and
there are no other threads. -/
theorem IsStart.inv (h : k.IsStart B) : ∃ place, k.Inv B place := by
  obtain ⟨idle, hidle, hstatus⟩ := h.status
  let place : T → Place S :=
    update (update (fun _ => .unused) B.idle (.off idle)) B.initial (.off .running)
  have hcases : ∀ t,
      t = B.initial ∧ place t = .off .running ∧ k.status t = some .running ∨
      t = B.idle ∧ t ≠ B.initial ∧ place t = .off idle ∧ k.status t = some idle ∨
      t ≠ B.idle ∧ t ≠ B.initial ∧ place t = .unused ∧ k.status t = none := by
    intro t
    rw [hstatus]
    by_cases h1 : t = B.initial
    · simp [h1, place]
    · by_cases h2 : t = B.idle
      · simp [h2, place, B.initial_ne_idle.symm]
      · simp [h1, h2, place]
  have hqueue : ∀ q, k.queue q = [] := by
    intro q
    cases q with
    | ready => exact h.readyList
    | waiters s => exact h.waiters s
    | sleep => exact h.sleepList
    | blocked => exact h.blockedThreads
    | freed => exact h.freed
  refine ⟨place, ⟨fun t => ?_, fun q t => ?_, fun q => ?_, fun t => ?_, fun t => ?_, ?_⟩,
    fun t => ?_⟩
  · rcases hcases t with ⟨-, hp, hs⟩ | ⟨-, -, hp, hs⟩ | ⟨-, -, hp, hs⟩ <;> rw [hp, hs] <;> rfl
  · rw [hqueue q]
    rcases hcases t with ⟨-, hp, -⟩ | ⟨-, -, hp, -⟩ | ⟨-, -, hp, -⟩ <;> simp [hp]
  · simp [hqueue q]
  · rcases hcases t with ⟨-, hp, -⟩ | ⟨ht, -, hp, -⟩ | ⟨ht, -, hp, -⟩ <;> rw [hp]
    · trivial
    · rcases hidle with rfl | rfl <;> exact ht
    · exact ht
  · rcases hcases t with ⟨-, hp, -⟩ | ⟨-, -, hp, -⟩ | ⟨-, -, hp, -⟩ <;> simp [hp, h.creating]
  · simp [h.creating]
  · rw [h.running]
    rcases hcases t with ⟨ht, hp, -⟩ | ⟨-, ht, hp, -⟩ | ⟨-, ht, hp, -⟩
    · exact iff_of_true hp ht
    · rcases hidle with rfl | rfl <;> simp [hp, ht]
    · simp [hp, ht]

theorem inv_reachable (h : (system B).Reachable k) : ∃ place, k.Inv B place := by
  apply h.invariant (fun k (hk : k.IsStart B) => hk.inv)
  rintro k e k' ⟨place, hinv⟩ ⟨he, happly⟩
  obtain ⟨k'', hk'', hinv'⟩ := hinv.apply he
  obtain rfl : k'' = k' := Option.some.inj (hk''.symm.trans happly)
  exact hinv'

end Semaphores

end Functions

section Result
variable [DecidableEq T] [DecidableEq S] {B : Boot T} {k : Kernel T S}

/-- **The scheduler's queues.**  In every state the kernel can reach after
`thread_start`: the current thread is running, and no other; a thread other than the
idle one is on `ready_list` once if it is ready and not at all otherwise; if it is
blocked and not being constructed, it is once on one of the lists on which threads are
blocked, and on no other list; if it is dying, it has been switched away from, is on no
list, and its page has been freed once, but for the initial thread, whose page is never
freed; only pages of dying threads have been freed; and no step that can be taken fails
in an assertion. -/
theorem queue_invariant (h : (system B).Reachable k) :
    (∀ t, k.status t = some .running ↔ t = k.runningThread) ∧
    (∀ t, t ≠ B.idle → k.readyList.count t = if k.status t = some .ready then 1 else 0) ∧
    (∀ t, t ≠ B.idle → k.status t = some .blocked → (∀ c, k.creating c ≠ some t) →
      ∃ q, q.status = .blocked ∧ ∀ q', (k.queue q').count t = if q' = q then 1 else 0) ∧
    (∀ t, k.status t = some .dying → t ≠ k.runningThread ∧
      (∀ q, q ≠ .freed → t ∉ k.queue q) ∧ k.freed.count t = if t = B.initial then 0 else 1) ∧
    (∀ t, t ∈ k.freed → k.status t = some .dying) ∧
    ∀ e, k.Enabled B e → ∃ k', k.apply B e = some k' := by
  obtain ⟨place, hinv⟩ := inv_reachable h
  have hplaced := hinv.toPlaced
  have hrunning : ∀ t, k.status t = some .running ↔ t = k.runningThread := fun t => by
    rw [hplaced.status t, Place.status_eq_running, hinv.running t]
  refine ⟨hrunning, fun t ht => ?_, fun t ht hblocked hcreated => ?_, fun t hdying => ?_,
    fun t ht => ?_, fun e he => ?_⟩
  · rw [if_congr (hplaced.ready_iff ht) rfl rfl]
    exact hplaced.count_queue .ready t
  · obtain ⟨q, hq, hp⟩ := hplaced.blocked ht hblocked hcreated
    refine ⟨q, hq, fun q' => ?_⟩
    rw [hplaced.count_queue q' t, hp]
    simp [eq_comm]
  · refine ⟨fun heq => ?_, fun q hne hmem => ?_, ?_⟩
    · rw [(hrunning t).mpr heq] at hdying
      cases hdying
    · have hp := (hplaced.mem q t).mp hmem
      rcases hplaced.dying_iff.mp hdying with hfreed | hoff
      · rw [hp] at hfreed
        exact hne (Place.on.inj hfreed)
      · rw [hp] at hoff
        cases hoff
    · rw [show k.freed = k.queue .freed from rfl, hplaced.count_queue .freed t]
      simp [hplaced.freed_iff hdying]
  · exact hplaced.dying_iff.mpr (Or.inl ((hplaced.mem .freed t).mp ht))
  · obtain ⟨k', hk', -⟩ := hinv.apply he
    exact ⟨k', hk'⟩

/-- The initial thread creates a thread and waits; the new thread exits; an interrupt
handler wakes the initial thread, which the idle thread then lets run. -/
theorem queue_invariant_exit :
    let B : Boot (Fin 3) := ⟨0, 1, by decide⟩
    ∃ k : Kernel (Fin 3) (Fin 1), (system B).Reachable k ∧ k.runningThread = 1 ∧
      k.status 2 = some .dying ∧ k.freed.count 2 = 1 := by
  intro B
  let events : List (KernelEvent (Fin 3) (Fin 1)) :=
    [.threadCreate 2, .threadCreateEnd, .semaDown 0, .threadExit, .semaUp 0, .idleBlock]
  let state := TransitionSystem.after (TransitionSystem.orSelf (apply B)) (start B) events
  have hsteps : ∀ t, t < 6 → (state t).Enabled B (events.getD t .threadYield) ∧
      ((state t).apply B (events.getD t .threadYield)).isSome = true := by decide +kernel
  have hrun : (system B).Run 6 state fun t => events.getD t .threadYield :=
    TransitionSystem.Run.of_checked_labels (isStart_start B) events .threadYield hsteps
  have hreachable : (system B).Reachable (state 6) := hrun.reachable (Nat.le_refl 6)
  have hdying : (state 6).status 2 = some .dying := by decide +kernel
  exact ⟨state 6, hreachable, by decide +kernel, hdying,
    ((queue_invariant hreachable).2.2.2.1 2 hdying).2.2⟩

end Result
end Kernel
end Pintos
