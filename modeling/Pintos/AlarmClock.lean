import Pintos.ThreadQueues

/-!
# The alarm clock

`thread_sleep`, `thread_wakeup` and `timer_interrupt`.  What the alarm clock is for is
said by `Alarm`: there are sleeping threads, each with the tick at which it wants to be
woken up; a thread can be added, and at every tick all those whose time has come are
unblocked.  The kernel does the same (`alarm_step`), but looks at the sleeping threads
only if `next_tick_to_wakeup` says so.  It can, since that is the earliest of their
ticks at any time (`Cached`); a scan of the list at every tick would do nothing else
(`timerInterrupt_eq_scan`).

A sleeping thread is on no other list (`Kernel.Inv`), so that nobody else unblocks it:
it sleeps until the first tick that reaches its own (`alarm_clock`).
-/

namespace Pintos
open List
open Function (update)

/-! ## The earliest tick -/

section Earliest
variable {T : Type}

/-- The earliest of the threads' ticks, `INT64_MAX` if there are no threads. -/
def earliest (wakeupTick : T → Int) : List T → Int
  | [] => int64Max
  | t :: rest => min (wakeupTick t) (earliest wakeupTick rest)

variable {wakeupTick : T → Int} {l : List T} {t : T}

theorem earliest_le_int64Max (wakeupTick : T → Int) (l : List T) :
    earliest wakeupTick l ≤ int64Max := by
  induction l with
  | nil => exact Int.le_refl _
  | cons t rest ih =>
    unfold earliest
    omega

theorem earliest_le (ht : t ∈ l) : earliest wakeupTick l ≤ wakeupTick t := by
  induction l with
  | nil => cases ht
  | cons u rest ih =>
    unfold earliest
    rcases mem_cons.mp ht with rfl | hrest
    · omega
    · have := ih hrest
      omega

theorem earliest_mem (hl : l ≠ []) (hle : ∀ t ∈ l, wakeupTick t ≤ int64Max) :
    ∃ t ∈ l, earliest wakeupTick l = wakeupTick t := by
  induction l with
  | nil => exact absurd rfl hl
  | cons t rest ih =>
    have ht := hle t mem_cons_self
    cases rest with
    | nil => exact ⟨t, mem_cons_self, by unfold earliest earliest; omega⟩
    | cons u rest =>
      obtain ⟨v, hv, heq⟩ := ih (by simp) fun v hv => hle v (mem_cons_of_mem t hv)
      rw [earliest, heq]
      rcases Int.le_total (wakeupTick t) (wakeupTick v) with h | h
      · exact ⟨t, mem_cons_self, by omega⟩
      · exact ⟨v, mem_cons_of_mem t hv, by omega⟩

theorem earliest_concat (wakeupTick : T → Int) (l : List T) (t : T) :
    earliest wakeupTick (l ++ [t]) = min (earliest wakeupTick l) (wakeupTick t) := by
  induction l with
  | nil =>
    show min (wakeupTick t) int64Max = min int64Max (wakeupTick t)
    omega
  | cons u rest ih =>
    simp only [cons_append, earliest, ih]
    omega

theorem earliest_congr {wakeupTick' : T → Int} (h : ∀ t ∈ l, wakeupTick' t = wakeupTick t) :
    earliest wakeupTick' l = earliest wakeupTick l := by
  induction l with
  | nil => rfl
  | cons t rest ih =>
    rw [earliest, earliest, h t mem_cons_self,
      ih fun u hu => h u (mem_cons_of_mem t hu)]

end Earliest

/-! ## What the alarm clock is for -/

/-- **An alarm clock**: the time, the threads that are asleep, and when each wants to be
woken up; `unblocks` counts how often each has been. -/
structure Alarm (T : Type) where
  ticks : Int
  sleepers : List T
  wakeupTick : T → Int
  unblocks : T → Nat

namespace Alarm
variable {T : Type} [DecidableEq T]

/-- `t` goes to sleep. -/
def sleep (a : Alarm T) (t : T) (tick : Int) : Alarm T :=
  { a with sleepers := a.sleepers ++ [t], wakeupTick := update a.wakeupTick t tick }

/-- The threads of a list are woken up. -/
def wake (a : Alarm T) (l : List T) : Alarm T :=
  { a with
    sleepers := a.sleepers.filter (· ∉ l)
    unblocks := fun t => if t ∈ l then a.unblocks t + 1 else a.unblocks t }

/-- The sleeping threads whose time has come. -/
def due (a : Alarm T) (now : Int) : List T :=
  a.sleepers.filter (a.wakeupTick · ≤ now)

/-- The clock ticks: all threads whose time has come are woken up. -/
def tick (a : Alarm T) : Alarm T :=
  { a with ticks := a.ticks + 1 }.wake (a.due (a.ticks + 1))

theorem wake_nil (a : Alarm T) : a.wake [] = a := by
  simp [wake]

theorem wake_cons (a : Alarm T) {t : T} {l : List T} (ht : t ∉ l) :
    (a.wake [t]).wake l = a.wake (t :: l) := by
  simp only [wake, filter_filter, Alarm.mk.injEq, true_and]
  constructor
  · apply filter_congr
    intro u _
    simp only [mem_cons]
    grind
  · funext u
    simp only [mem_cons]
    by_cases hu : u = t
    · simp [hu, ht]
    · simp [hu]

theorem mem_sleepers_tick {a : Alarm T} {t : T} :
    t ∈ a.tick.sleepers ↔ t ∈ a.sleepers ∧ a.ticks + 1 < a.wakeupTick t := by
  simp only [tick, wake, due, mem_filter, decide_eq_true_eq]
  constructor
  · rintro ⟨hmem, hnot⟩
    exact ⟨hmem, by
      apply Int.not_le.mp
      exact fun hle => hnot ⟨hmem, hle⟩⟩
  · rintro ⟨hmem, hlt⟩
    exact ⟨hmem, fun h => by
      omega⟩

end Alarm

/-! ## What the functions of the kernel do to the alarm clock -/

namespace Kernel
variable {T S : Type}

def alarm (k : Kernel T S) : Alarm T :=
  ⟨k.ticks, k.sleepList, k.wakeupTick, k.unblocks⟩

/-- All that has to do with sleeping. -/
def clockwork (k : Kernel T S) : Alarm T × Int × (T → Option Int) :=
  (k.alarm, k.nextTickToWakeup, k.timerSleeping)

section Clockwork
variable [DecidableEq T] {B : Boot T} {k k' : Kernel T S}

/-- **`schedule`** switches to the next thread, and may free a page. -/
theorem schedule_some (h : k.schedule B = some k') : ∃ freed, k' = { k.switched B with freed } := by
  simp only [schedule, nextThreadToRun_eq, threadScheduleTail, Option.bind_eq_bind,
    Option.bind_eq_some_iff] at h
  obtain ⟨_, _, _, _, h⟩ := h
  split at h
  · rename_i hsame
    cases h
    exact ⟨k.freed, by simp [switched, setStatus, hsame]⟩
  · split at h
    · obtain ⟨_, _, h⟩ := of_bind h
      cases h
      exact ⟨_, rfl⟩
    · cases h
      exact ⟨k.freed, rfl⟩

theorem schedule_clockwork (h : k.schedule B = some k') : k'.clockwork = k.clockwork := by
  obtain ⟨freed, rfl⟩ := schedule_some h
  rfl

theorem threadBlock_clockwork (h : k.threadBlock B = some k') : k'.clockwork = k.clockwork := by
  obtain ⟨cur, _, h⟩ := of_bind h
  exact (schedule_clockwork h).trans rfl

theorem threadExit_clockwork (h : k.threadExit B = some k') : k'.clockwork = k.clockwork := by
  obtain ⟨cur, _, h⟩ := of_bind h
  exact (schedule_clockwork h).trans rfl

theorem threadYield_clockwork (h : k.threadYield B = some k') : k'.clockwork = k.clockwork := by
  obtain ⟨cur, _, h⟩ := of_bind h
  refine (schedule_clockwork h).trans ?_
  split <;> rfl

theorem blockThread_clockwork (h : k.blockThread B = some k') : k'.clockwork = k.clockwork := by
  obtain ⟨cur, _, h⟩ := of_bind h
  exact (threadBlock_clockwork h).trans rfl

theorem threadUnblock_some {t : T} (h : k.threadUnblock t = some k') : k' = k.makeReady t := by
  obtain ⟨_, _, h⟩ := of_bind h
  obtain ⟨_, _, h⟩ := of_bind h
  exact (Option.some.inj h).symm

end Clockwork

/-! ## `thread_wakeup` -/

theorem updateNextTickToWakeup_eq (k : Kernel T S) (tick : Int) :
    (k.updateNextTickToWakeup tick).nextTickToWakeup = min k.nextTickToWakeup tick := by
  unfold updateNextTickToWakeup
  dsimp only
  split <;> omega

section Wakeup
variable [DecidableEq T] {k k' : Kernel T S} {tick : Int}

/-- One thread is woken up. -/
theorem alarm_makeReady (hk : k.sleepList.Nodup) (t : T) :
    (({ k with sleepList := k.sleepList.erase t } : Kernel T S).makeReady t).alarm =
      k.alarm.wake [t] := by
  simp only [alarm, makeReady, setStatus, Alarm.wake, hk.erase_eq_filter, Alarm.mk.injEq, true_and]
  constructor
  · apply filter_congr
    intro u _
    rw [Bool.eq_iff_iff]
    simp
  · funext u
    by_cases hu : u = t
    · simp [hu]
    · simp [hu]

/-- **The loop of `thread_wakeup`**, by induction on the elements of `sleep_list` it has
not looked at: those whose time has come are woken up, and the others contribute to the
earliest tick. -/
theorem wakeupLoop_some {l : List T} (hk : k.sleepList.Nodup) (hl : l.Nodup)
    (hmax : k.nextTickToWakeup ≤ int64Max) (h : wakeupLoop tick l k = some k') :
    k'.alarm = k.alarm.wake (l.filter (k.wakeupTick · ≤ tick)) ∧
      k'.nextTickToWakeup =
        min k.nextTickToWakeup (earliest k.wakeupTick (l.filter (tick < k.wakeupTick ·))) ∧
      k'.timerSleeping = k.timerSleeping := by
  induction l generalizing k with
  | nil =>
    cases h
    exact ⟨(Alarm.wake_nil _).symm, (Int.min_eq_left hmax).symm, rfl⟩
  | cons t rest ih =>
    obtain ⟨hnotin, hrest⟩ := nodup_cons.mp hl
    unfold wakeupLoop at h
    split at h
    · next hdue =>
      obtain ⟨k₁, hk₁, h⟩ := of_bind h
      obtain rfl := threadUnblock_some hk₁
      obtain ⟨halarm, hnext, htimer⟩ :=
        ih (k := ({ k with sleepList := k.sleepList.erase t } : Kernel T S).makeReady t)
          (hk.erase t) hrest hmax h
      have hdue' : ¬tick < k.wakeupTick t := by omega
      refine ⟨?_, ?_, htimer⟩
      · rw [halarm, alarm_makeReady hk]
        rw [filter_cons_of_pos (by simpa using hdue)]
        exact Alarm.wake_cons _ fun hmem => hnotin (mem_of_mem_filter hmem)
      · rw [hnext, filter_cons_of_neg (by simpa using hdue')]
        rfl
    · next hearly =>
      obtain ⟨halarm, hnext, htimer⟩ :=
        ih (k := k.updateNextTickToWakeup (k.wakeupTick t)) hk hrest
          (by rw [updateNextTickToWakeup_eq]; omega) h
      refine ⟨?_, ?_, htimer⟩
      · rw [halarm, filter_cons_of_neg (by simpa using hearly)]
        rfl
      · have hearly' : tick < k.wakeupTick t := by omega
        rw [hnext, updateNextTickToWakeup_eq, filter_cons_of_pos (by simpa using hearly')]
        exact Int.min_assoc _ _ _

/-- **`thread_wakeup`.** -/
theorem threadWakeup_some (hk : k.sleepList.Nodup) (h : k.threadWakeup tick = some k') :
    k'.alarm = k.alarm.wake (k.alarm.due tick) ∧
      k'.nextTickToWakeup = earliest k'.wakeupTick k'.sleepList ∧
      k'.timerSleeping = k.timerSleeping := by
  obtain ⟨halarm, hnext, htimer⟩ :=
    wakeupLoop_some (k := { k with nextTickToWakeup := int64Max }) hk hk (Int.le_refl _) h
  refine ⟨halarm, ?_, htimer⟩
  have hticks : k'.wakeupTick = k.wakeupTick := congrArg Alarm.wakeupTick halarm
  have hlist : k'.sleepList = k.sleepList.filter (tick < k.wakeupTick ·) := by
    refine (congrArg Alarm.sleepers halarm).trans (filter_congr fun t ht => ?_)
    have ht' : t ∈ k.sleepList := ht
    rw [Bool.eq_iff_iff]
    simp [ht']
  rw [hnext, hticks, hlist]
  exact Int.min_eq_right (earliest_le_int64Max _ _)

/-- A scan that finds nobody to wake up only computes the earliest tick. -/
theorem wakeupLoop_early {l : List T} (hl : ∀ t ∈ l, tick < k.wakeupTick t)
    (hmax : k.nextTickToWakeup ≤ int64Max) :
    wakeupLoop tick l k =
      some { k with nextTickToWakeup := min k.nextTickToWakeup (earliest k.wakeupTick l) } := by
  induction l generalizing k with
  | nil => simp [wakeupLoop, earliest, Int.min_eq_left hmax]
  | cons t rest ih =>
    have ht := hl t mem_cons_self
    unfold wakeupLoop
    rw [if_neg (by omega)]
    have hrest := ih (k := k.updateNextTickToWakeup (k.wakeupTick t))
      (fun u hu => hl u (mem_cons_of_mem t hu)) (by rw [updateNextTickToWakeup_eq]; omega)
    rw [hrest, updateNextTickToWakeup_eq, earliest, ← Int.min_assoc]
    rfl

end Wakeup

/-! ## The cached tick -/

/-- **`next_tick_to_wakeup` is the earliest tick** of the sleeping threads.  Ticks are
`int64_t`s, those that threads in `timer_sleep` have computed included. -/
structure Cached (k : Kernel T S) : Prop where
  next : k.nextTickToWakeup = earliest k.wakeupTick k.sleepList
  le : ∀ t ∈ k.sleepList, k.wakeupTick t ≤ int64Max
  pending : ∀ t tick, k.timerSleeping t = some tick → tick ≤ int64Max

/-- A timer interrupt that scans `sleep_list` at every tick. -/
def timerInterruptScan [DecidableEq T] (B : Boot T) (k : Kernel T S) : Option (Kernel T S) := do
  let (k, yieldOnReturn) ← { k with ticks := k.ticks + 1 }.threadTick
  let k ← k.threadWakeup k.ticks
  if yieldOnReturn then k.threadYield B else some k

section Cache
variable [DecidableEq T] {B : Boot T} {k k' : Kernel T S}

/-- **The check agrees with a scan.** -/
theorem wakeupDue_eq_scan (h : k.nextTickToWakeup = earliest k.wakeupTick k.sleepList) :
    k.wakeupDue = k.threadWakeup k.ticks := by
  unfold wakeupDue
  split
  · rfl
  · next hearly =>
    have hall : ∀ t ∈ k.sleepList, k.ticks < k.wakeupTick t := by
      intro t ht
      have hle : earliest k.wakeupTick k.sleepList ≤ k.wakeupTick t := earliest_le ht
      omega
    have hscan := wakeupLoop_early (k := { k with nextTickToWakeup := int64Max }) hall
      (Int.le_refl _)
    rw [threadWakeup, hscan, Int.min_eq_right (earliest_le_int64Max _ _), ← h]

theorem timerInterrupt_eq_scan (h : k.Cached) : k.timerInterrupt B = k.timerInterruptScan B := by
  have hscan : ∀ threadTicks,
      let k₁ : Kernel T S := { k with ticks := k.ticks + 1, threadTicks := threadTicks }
      k₁.wakeupDue = k₁.threadWakeup k₁.ticks := fun _ => wakeupDue_eq_scan h.next
  unfold timerInterrupt timerInterruptScan threadTick
  cases ({ k with ticks := k.ticks + 1 } : Kernel T S).threadCurrent with
  | none => rfl
  | some cur => simp only [some_bind, pure, hscan]

end Cache

/-! ## What a step does to the alarm clock -/

/-- The ticks threads ask for are `int64_t`s: `timer_sleep` does not overflow. -/
def InRange (k : Kernel T S) : KernelEvent T S → Prop
  | .threadSleep tick => tick ≤ int64Max
  | .timerSleep ticks => k.ticks + ticks ≤ int64Max
  | .threadCreate _ | .threadCreateEnd | .threadYield | .threadExit | .timerSleepEnd | .semaDown _
  | .semaTryDown _ | .semaUp _ | .blockThread | .unblockThreads | .timerInterrupt | .idleBlock =>
    True

instance (k : Kernel T S) : ∀ e, Decidable (k.InRange e)
  | .threadSleep _ | .timerSleep _ => inferInstanceAs (Decidable (_ ≤ _))
  | .threadCreate _ | .threadCreateEnd | .threadYield | .threadExit | .timerSleepEnd | .semaDown _
  | .semaTryDown _ | .semaUp _ | .blockThread | .unblockThreads | .timerInterrupt | .idleBlock =>
    inferInstanceAs (Decidable True)

/-- The running thread calls `thread_sleep` with this tick. -/
inductive SleepCall (k : Kernel T S) : KernelEvent T S → Int → Prop
  | threadSleep (tick : Int) : SleepCall k (.threadSleep tick) tick
  | timerSleep {tick : Int} (h : k.timerSleeping k.runningThread = some tick) :
    SleepCall k .timerSleepEnd tick

/-- The sleeping threads are left alone. -/
structure Quiet (k k' : Kernel T S) : Prop where
  ticks : k'.ticks = k.ticks
  sleepList : k'.sleepList = k.sleepList
  wakeupTick : k'.wakeupTick = k.wakeupTick
  nextTickToWakeup : k'.nextTickToWakeup = k.nextTickToWakeup
  unblocks : ∀ t ∈ k.sleepList, k'.unblocks t = k.unblocks t
  pending : ∀ t tick, k'.timerSleeping t = some tick →
    k.timerSleeping t = some tick ∨ tick ≤ int64Max

/-- **What a step does to the alarm clock**: it leaves the sleeping threads alone, puts
the running thread to sleep, or is a tick. -/
inductive AlarmStep [DecidableEq T] (k k' : Kernel T S) : KernelEvent T S → Prop
  | quiet {e : KernelEvent T S} (hne : e ≠ .timerInterrupt) (hquiet : Quiet k k') :
    AlarmStep k k' e
  | sleep {e : KernelEvent T S} {tick : Int} (hcall : k.SleepCall e tick) (hle : tick ≤ int64Max)
    (hawake : k.runningThread ∉ k.sleepList)
    (halarm : k'.alarm = k.alarm.sleep k.runningThread tick)
    (hnext : k'.nextTickToWakeup = min k.nextTickToWakeup tick)
    (hpending : ∀ t tick, k'.timerSleeping t = some tick → k.timerSleeping t = some tick) :
    AlarmStep k k' e
  | tick (halarm : k'.alarm = k.alarm.tick)
    (hnext : k'.nextTickToWakeup = earliest k'.wakeupTick k'.sleepList)
    (hpending : k'.timerSleeping = k.timerSleeping) : AlarmStep k k' .timerInterrupt

namespace Quiet
variable {k k₁ k' : Kernel T S}

theorem trans (h : Quiet k k₁) (h' : Quiet k₁ k') : Quiet k k' where
  ticks := h'.ticks.trans h.ticks
  sleepList := h'.sleepList.trans h.sleepList
  wakeupTick := h'.wakeupTick.trans h.wakeupTick
  nextTickToWakeup := h'.nextTickToWakeup.trans h.nextTickToWakeup
  unblocks t ht := (h'.unblocks t (h.sleepList ▸ ht)).trans (h.unblocks t ht)
  pending t tick ht := (h'.pending t tick ht).elim (h.pending t tick) Or.inr

theorem of_clockwork (h : k'.clockwork = k.clockwork) : Quiet k k' := by
  simp only [clockwork, alarm, Prod.mk.injEq, Alarm.mk.injEq] at h
  obtain ⟨⟨hticks, hlist, htick, hunblocks⟩, hnext, htimer⟩ := h
  exact ⟨hticks, hlist, htick, hnext, fun t _ => by rw [hunblocks],
    fun t tick ht => Or.inl (htimer ▸ ht)⟩

variable [DecidableEq T]

/-- A thread that does not sleep is unblocked. -/
theorem threadUnblock {t : T} (hunblock : k₁.threadUnblock t = some k') (ht : t ∉ k.sleepList)
    (h : k₁.clockwork = k.clockwork) : Quiet k k' := by
  obtain rfl := threadUnblock_some hunblock
  refine (of_clockwork h).trans ⟨rfl, rfl, rfl, rfl, fun u hu => ?_, fun _ _ => Or.inl⟩
  rw [(of_clockwork h).sleepList] at hu
  have hne : u ≠ t := fun heq => ht (heq ▸ hu)
  exact Function.update_of_ne hne _ _

theorem unblockLoop {l : List T} (hl : ∀ t ∈ l, t ∉ k.sleepList)
    (h : unblockLoop l k = some k') : Quiet k k' := by
  induction l generalizing k with
  | nil =>
    cases h
    exact of_clockwork rfl
  | cons t rest ih =>
    obtain ⟨k₁, hk₁, h⟩ := of_bind h
    have hquiet : Quiet k k₁ := .threadUnblock hk₁ (hl t mem_cons_self) rfl
    refine hquiet.trans (ih (fun u hu => ?_) h)
    rw [hquiet.sleepList]
    exact hl u (mem_cons_of_mem t hu)

end Quiet

section Steps
variable {B : Boot T} {k k' : Kernel T S} {place : T → Place S} {t : T}

theorem Inv.not_mem_sleepList (h : k.Inv B place) (ht : place t ≠ .on .sleep) :
    t ∉ k.sleepList :=
  fun hmem => ht ((h.mem .sleep t).mp hmem)

theorem Inv.current_awake (h : k.Inv B place) : k.runningThread ∉ k.sleepList :=
  h.not_mem_sleepList (by simp [h.current])

variable [DecidableEq T]

/-- **`thread_sleep`.** -/
theorem threadSleep_some (hcur : k.threadCurrent = some k.runningThread) {tick : Int}
    (h : k.threadSleep B tick = some k') :
    k'.alarm = k.alarm.sleep k.runningThread tick ∧
      k'.nextTickToWakeup = min k.nextTickToWakeup tick ∧ k'.timerSleeping = k.timerSleeping := by
  simp only [threadSleep, hcur, some_bind] at h
  obtain ⟨_, _, h⟩ := of_bind h
  have hclock := threadBlock_clockwork h
  simp only [clockwork, Prod.mk.injEq] at hclock
  obtain ⟨halarm, hnext, htimer⟩ := hclock
  exact ⟨halarm, hnext.trans (updateNextTickToWakeup_eq _ _), htimer⟩

/-- **`timer_interrupt`.** -/
theorem timerInterrupt_some (h : k.Inv B place) (hcached : k.Cached)
    (happly : k.timerInterrupt B = some k') :
    k'.alarm = k.alarm.tick ∧ k'.nextTickToWakeup = earliest k'.wakeupTick k'.sleepList ∧
      k'.timerSleeping = k.timerSleeping := by
  have hticked : Inv B { k with ticks := k.ticks + 1 } place := h.congr rfl rfl rfl rfl
  let k₀ : Kernel T S := { k with ticks := k.ticks + 1, threadTicks := k.threadTicks + 1 }
  rw [timerInterrupt_eq_scan hcached] at happly
  simp only [timerInterruptScan, threadTick, hticked.threadCurrent, some_bind, pure] at happly
  obtain ⟨k₁, hwakeup, happly⟩ := of_bind happly
  obtain ⟨halarm, hnext, htimer⟩ := threadWakeup_some (k := k₀) (h.nodup .sleep) hwakeup
  -- the `thread_yield` on return changes nothing more
  have hclock : k'.clockwork = k₁.clockwork := by
    split at happly
    · exact threadYield_clockwork happly
    · cases happly
      rfl
  simp only [clockwork, Prod.mk.injEq] at hclock
  obtain ⟨halarm', hnext', htimer'⟩ := hclock
  refine ⟨halarm'.trans halarm, ?_, htimer'.trans htimer⟩
  rw [hnext', hnext, show k'.wakeupTick = k₁.wakeupTick from congrArg Alarm.wakeupTick halarm',
    show k'.sleepList = k₁.sleepList from congrArg Alarm.sleepers halarm']

theorem Inv.threadCreateEnd_quiet (h : k.Inv B place) (happly : k.threadCreateEnd = some k') :
    Quiet k k' := by
  simp only [Kernel.threadCreateEnd, h.threadCurrent, some_bind] at happly
  obtain ⟨t, ht, happly⟩ := of_bind happly
  have hcreated : place t = .created := (h.created t).mpr ⟨_, ht⟩
  exact .threadUnblock happly (h.not_mem_sleepList (by simp [hcreated])) rfl

variable [DecidableEq S]

theorem semaDown_clockwork {s : S} (h : k.semaDown B s = some k') :
    k'.clockwork = k.clockwork := by
  unfold semaDown at h
  dsimp only at h
  split at h
  · cases h
    rfl
  · exact (threadBlock_clockwork h).trans rfl

theorem Inv.semaUp_quiet (h : k.Inv B place) {s : S} (happly : k.semaUp s = some k') :
    Quiet k k' := by
  unfold Kernel.semaUp Semaphore.up at happly
  cases hwaiters : (k.semaphores s).waiters with
  | nil =>
    rw [hwaiters] at happly
    cases happly
    exact .of_clockwork rfl
  | cons t rest =>
    rw [hwaiters] at happly
    have ht : place t = .on (.waiters s) := (h.mem (.waiters s) t).mp (by simp [queue, hwaiters])
    exact .threadUnblock happly (h.not_mem_sleepList (by simp [ht])) rfl

/-- **The kernel is an alarm clock.** -/
theorem Inv.alarm_step (h : k.Inv B place) (hcached : k.Cached) {e : KernelEvent T S}
    (he : k.Enabled B e) (hrange : k.InRange e) (happly : k.apply B e = some k') :
    AlarmStep k k' e := by
  cases e with
  | threadCreate t =>
    obtain ⟨cur, _, happly⟩ := of_bind happly
    cases happly
    exact .quiet (by simp) (.of_clockwork rfl)
  | threadCreateEnd => exact .quiet (by simp) (h.threadCreateEnd_quiet happly)
  | threadYield => exact .quiet (by simp) (.of_clockwork (threadYield_clockwork happly))
  | threadExit => exact .quiet (by simp) (.of_clockwork (threadExit_clockwork happly))
  | threadSleep tick =>
    obtain ⟨halarm, hnext, htimer⟩ := threadSleep_some h.threadCurrent happly
    exact .sleep (.threadSleep tick) hrange h.current_awake halarm hnext
      fun t tick ht => htimer ▸ ht
  | timerSleep ticks =>
    simp only [Kernel.apply, timerSleep, h.threadCurrent, some_bind] at happly
    cases happly
    refine .quiet (by simp) ⟨rfl, rfl, rfl, rfl, fun _ _ => rfl, fun t tick ht => ?_⟩
    by_cases hcur : t = k.runningThread
    · subst hcur
      obtain rfl : k.ticks + ticks = tick := by simpa using ht
      exact Or.inr hrange
    · exact Or.inl (by simpa [hcur] using ht)
  | timerSleepEnd =>
    obtain ⟨tick, htick⟩ := Option.ne_none_iff_exists'.mp he.2
    simp only [Kernel.apply, timerSleepEnd, h.threadCurrent, htick, some_bind] at happly
    have hcleared : Inv B { k with
        timerSleeping := update k.timerSleeping k.runningThread none } place :=
      h.congr rfl rfl rfl rfl
    obtain ⟨halarm, hnext, htimer⟩ := threadSleep_some hcleared.threadCurrent happly
    refine .sleep (.timerSleep htick) (hcached.pending _ _ htick) h.current_awake halarm hnext
      fun t tick' ht => ?_
    rw [htimer] at ht
    by_cases hcur : t = k.runningThread
    · simp [hcur] at ht
    · simpa [hcur] using ht
  | semaDown s => exact .quiet (by simp) (.of_clockwork (semaDown_clockwork happly))
  | semaTryDown s =>
    cases happly
    exact .quiet (by simp) (.of_clockwork rfl)
  | semaUp s => exact .quiet (by simp) (h.semaUp_quiet happly)
  | blockThread => exact .quiet (by simp) (.of_clockwork (blockThread_clockwork happly))
  | unblockThreads =>
    refine .quiet (by simp) (.unblockLoop (fun t ht => ?_) happly)
    have hplace : place t = .on .blocked := (h.mem .blocked t).mp ht
    exact h.not_mem_sleepList (by simp [hplace])
  | timerInterrupt =>
    obtain ⟨halarm, hnext, htimer⟩ := timerInterrupt_some h hcached happly
    exact .tick halarm hnext htimer
  | idleBlock => exact .quiet (by simp) (.of_clockwork (threadBlock_clockwork happly))

end Steps

namespace AlarmStep
variable [DecidableEq T] {k k' : Kernel T S} {e : KernelEvent T S} {t : T}

theorem of_sleep {tick : Int} (halarm : k'.alarm = k.alarm.sleep k.runningThread tick) :
    k'.sleepList = k.sleepList ++ [k.runningThread] ∧
      k'.wakeupTick = update k.wakeupTick k.runningThread tick :=
  ⟨congrArg Alarm.sleepers halarm, congrArg Alarm.wakeupTick halarm⟩

/-- **Every step keeps the cache.** -/
theorem cached (h : AlarmStep k k' e) (hcached : k.Cached) : k'.Cached := by
  cases h with
  | quiet _ hquiet =>
    refine ⟨?_, ?_, fun t tick ht => (hquiet.pending t tick ht).elim (hcached.pending t tick) id⟩
    · rw [hquiet.nextTickToWakeup, hquiet.wakeupTick, hquiet.sleepList]
      exact hcached.next
    · rw [hquiet.wakeupTick, hquiet.sleepList]
      exact hcached.le
  | @sleep _ tick _ hle hawake halarm hnext hpending =>
    obtain ⟨hlist, htick⟩ := of_sleep halarm
    -- the ticks of the others are what they were
    have hother : ∀ t ∈ k.sleepList, k'.wakeupTick t = k.wakeupTick t := by
      intro t ht
      have hne : t ≠ k.runningThread := fun heq => hawake (heq ▸ ht)
      rw [htick, Function.update_of_ne hne]
    have hself : k'.wakeupTick k.runningThread = tick := by
      rw [htick, Function.update_self]
    refine ⟨?_, fun t ht => ?_, fun t tick' ht => hcached.pending t tick' (hpending t tick' ht)⟩
    · rw [hnext, hlist, earliest_concat, earliest_congr hother, hself, hcached.next]
    · rw [hlist] at ht
      rcases mem_append.mp ht with hmem | hmem
      · rw [hother t hmem]
        exact hcached.le t hmem
      · rw [mem_singleton.mp hmem, hself]
        exact hle
  | tick halarm hnext hpending =>
    refine ⟨hnext, fun t ht => ?_, hpending ▸ hcached.pending⟩
    have hmem : t ∈ k.alarm.tick.sleepers := halarm ▸ ht
    rw [show k'.wakeupTick = k.wakeupTick from congrArg Alarm.wakeupTick halarm]
    exact hcached.le t (Alarm.mem_sleepers_tick.mp hmem).1

section
variable (h : AlarmStep k k' .timerInterrupt)
include h

/-- A timer interrupt is a tick. -/
theorem alarm_tick : k'.alarm = k.alarm.tick := by
  cases h with
  | quiet hne _ => exact absurd rfl hne
  | sleep hcall => cases hcall
  | tick halarm => exact halarm

theorem ticks : k'.ticks = k.ticks + 1 :=
  congrArg Alarm.ticks h.alarm_tick

/-- **Nobody oversleeps.** -/
theorem lt_wakeupTick (ht : t ∈ k'.sleepList) :
    k'.ticks < k'.wakeupTick t := by
  have hmem : t ∈ k.alarm.tick.sleepers := h.alarm_tick ▸ ht
  rw [h.ticks, show k'.wakeupTick = k.wakeupTick from congrArg Alarm.wakeupTick h.alarm_tick]
  exact (Alarm.mem_sleepers_tick.mp hmem).2

end

/-- Only `thread_sleep` puts a thread to sleep, the running one. -/
theorem falls_asleep (h : AlarmStep k k' e) (ht : t ∉ k.sleepList) (ht' : t ∈ k'.sleepList) :
    (t = k.runningThread ∧ k.SleepCall e (k'.wakeupTick t)) ∧ k'.unblocks t = k.unblocks t := by
  cases h with
  | quiet _ hquiet =>
    rw [hquiet.sleepList] at ht'
    exact absurd ht' ht
  | @sleep _ tick hcall _ _ halarm =>
    obtain ⟨hlist, htick⟩ := of_sleep halarm
    obtain rfl : t = k.runningThread := by
      rw [hlist] at ht'
      rcases mem_append.mp ht' with hmem | hmem
      · exact absurd hmem ht
      · exact mem_singleton.mp hmem
    refine ⟨⟨rfl, ?_⟩, congrFun (congrArg Alarm.unblocks halarm) _⟩
    rwa [htick, Function.update_self]
  | tick halarm =>
    have hmem : t ∈ k.alarm.tick.sleepers := halarm ▸ ht'
    exact absurd (Alarm.mem_sleepers_tick.mp hmem).1 ht

/-- **A sleeping thread sleeps on** until its time has come. -/
theorem sleeps_on (h : AlarmStep k k' e) (ht : t ∈ k.sleepList)
    (hearly : e = .timerInterrupt → k'.ticks < k.wakeupTick t) :
    t ∈ k'.sleepList ∧ k'.wakeupTick t = k.wakeupTick t ∧ k'.unblocks t = k.unblocks t := by
  cases h with
  | quiet _ hquiet =>
    rw [hquiet.sleepList, hquiet.wakeupTick]
    exact ⟨ht, rfl, hquiet.unblocks t ht⟩
  | @sleep _ tick _ _ hawake halarm =>
    obtain ⟨hlist, htick⟩ := of_sleep halarm
    refine ⟨?_, ?_, congrFun (congrArg Alarm.unblocks halarm) t⟩
    · rw [hlist]
      exact mem_append_left _ ht
    · have hne : t ≠ k.runningThread := fun heq => hawake (heq ▸ ht)
      rw [htick, Function.update_of_ne hne]
  | tick halarm =>
    have hlt : k.ticks + 1 < k.wakeupTick t := by
      have hticks : k'.ticks = k.ticks + 1 := congrArg Alarm.ticks halarm
      rw [← hticks]
      exact hearly rfl
    have hmem : t ∈ k.alarm.tick.sleepers := Alarm.mem_sleepers_tick.mpr ⟨ht, hlt⟩
    refine ⟨?_, congrFun (congrArg Alarm.wakeupTick halarm) t, ?_⟩
    · rw [← halarm] at hmem
      exact hmem
    · refine (congrFun (congrArg Alarm.unblocks halarm) t).trans (if_neg fun hdue => ?_)
      simp only [Alarm.due, mem_filter, decide_eq_true_eq] at hdue
      exact absurd hdue.2 (Int.not_le.mpr hlt)

/-- **And is then woken up**, once. -/
theorem wakes_up (h : AlarmStep k k' .timerInterrupt) (ht : t ∈ k.sleepList)
    (hdue : k.wakeupTick t ≤ k'.ticks) :
    t ∉ k'.sleepList ∧ k'.unblocks t = k.unblocks t + 1 := by
  rw [h.ticks] at hdue
  constructor
  · intro ht'
    have hmem : t ∈ k.alarm.tick.sleepers := h.alarm_tick ▸ ht'
    exact absurd hdue (Int.not_le.mpr (Alarm.mem_sleepers_tick.mp hmem).2)
  · refine (congrFun (congrArg Alarm.unblocks h.alarm_tick) t).trans (if_pos ?_)
    simp only [Alarm.due, mem_filter, decide_eq_true_eq]
    exact ⟨ht, hdue⟩

end AlarmStep

/-! ## Runs -/

section Runs
variable [DecidableEq T] [DecidableEq S] {B : Boot T} {k k' : Kernel T S}

omit [DecidableEq S] in
theorem IsStart.cached (h : k.IsStart B) : k.Cached where
  next := by rw [h.nextTickToWakeup, h.sleepList]; rfl
  le := by simp [h.sleepList]
  pending := by simp [h.timerSleeping]

section Run
variable {N : Nat} {state : Nat → Kernel T S} {label : Nat → KernelEvent T S}

section
variable {i : Nat} (hrun : (system B).Run N state label)
  (hrange : ∀ i, i < N → (state i).InRange (label i))
include hrun hrange

/-- The threads have their places and the cache is right, at any time. -/
theorem inv_run (hi : i ≤ N) :
    (∃ place, (state i).Inv B place) ∧ (state i).Cached := by
  have hstart : (state 0).IsStart B := hrun.init
  refine TransitionSystem.keep
    (P := fun k : Kernel T S => (∃ place, k.Inv B place) ∧ k.Cached) (Nat.zero_le i)
    (fun u _ hui h => ?_) ⟨hstart.inv, hstart.cached⟩
  have hu : u < N := Nat.lt_of_lt_of_le hui hi
  obtain ⟨⟨place, hinv⟩, hcached⟩ := h
  have hstep := hrun.step u hu
  exact ⟨inv_reachable (hrun.reachable (show u + 1 ≤ N from hu)),
    (hinv.alarm_step hcached hstep.1 (hrange u hu) hstep.2).cached hcached⟩

theorem alarmStep_run (hi : i < N) :
    AlarmStep (state i) (state (i + 1)) (label i) := by
  obtain ⟨⟨place, hinv⟩, hcached⟩ := inv_run hrun hrange (Nat.le_of_lt hi)
  have hstep := hrun.step i hi
  exact hinv.alarm_step hcached hstep.1 (hrange i hi) hstep.2

end

end Run

/-- **The alarm clock is correct.**  In every run in which the ticks asked for do not
overflow, `next_tick_to_wakeup` is the least tick of the threads on `sleep_list`,
`INT64_MAX` if there are none, so that scanning the list at every timer interrupt would
make no difference.  After a timer interrupt no thread is left on `sleep_list` whose
tick has been reached.  And a thread that has come onto `sleep_list`, which it does by
its own call of `thread_sleep`, stays there and is not unblocked as long as no later
timer interrupt reaches its tick; the first one that does takes it from the list and
unblocks it, once. -/
theorem alarm_clock {N : Nat} {state : Nat → Kernel T S} {label : Nat → KernelEvent T S}
    (hrun : (system B).Run N state label) (hrange : ∀ i, i < N → (state i).InRange (label i)) :
    (∀ i, i ≤ N →
      ((state i).sleepList = [] → (state i).nextTickToWakeup = int64Max) ∧
      (∀ t ∈ (state i).sleepList, (state i).nextTickToWakeup ≤ (state i).wakeupTick t) ∧
      ((state i).sleepList ≠ [] →
        ∃ t ∈ (state i).sleepList, (state i).nextTickToWakeup = (state i).wakeupTick t) ∧
      (state i).timerInterrupt B = (state i).timerInterruptScan B) ∧
    (∀ i, i < N → label i = .timerInterrupt →
      ∀ t ∈ (state (i + 1)).sleepList, (state (i + 1)).ticks < (state (i + 1)).wakeupTick t) ∧
    ∀ i t, i < N → t ∉ (state i).sleepList → t ∈ (state (i + 1)).sleepList →
      (t = (state i).runningThread ∧
        (state i).SleepCall (label i) ((state (i + 1)).wakeupTick t)) ∧
      ∀ j, i < j → j ≤ N →
        (∀ u, i < u → u < j → label u = .timerInterrupt →
          (state (u + 1)).ticks < (state (i + 1)).wakeupTick t) →
        (t ∈ (state j).sleepList ∧ (state j).unblocks t = (state i).unblocks t) ∧
        (j < N → label j = .timerInterrupt →
          (state (i + 1)).wakeupTick t ≤ (state (j + 1)).ticks →
          t ∉ (state (j + 1)).sleepList ∧
            (state (j + 1)).unblocks t = (state i).unblocks t + 1) := by
  have hsteps : ∀ i, i < N → AlarmStep (state i) (state (i + 1)) (label i) :=
    fun i hi => alarmStep_run hrun hrange hi
  refine ⟨fun i hi => ?_, fun i hi hlabel t ht => ?_, fun i t hi ht ht' => ?_⟩
  · have hcached := (inv_run hrun hrange hi).2
    refine ⟨fun hempty => ?_, fun t ht => ?_, fun hne => ?_, timerInterrupt_eq_scan hcached⟩
    · rw [hcached.next, hempty]
      rfl
    · rw [hcached.next]
      exact earliest_le ht
    · rw [hcached.next]
      exact earliest_mem hne hcached.le
  · exact (hlabel ▸ hsteps i hi).lt_wakeupTick ht
  · obtain ⟨hcall, hunblocks⟩ := (hsteps i hi).falls_asleep ht ht'
    refine ⟨hcall, fun j hij hj hearly => ?_⟩
    -- from step `i + 1` on the thread sleeps on
    have hasleep : t ∈ (state j).sleepList ∧
        (state j).wakeupTick t = (state (i + 1)).wakeupTick t ∧
        (state j).unblocks t = (state i).unblocks t := by
      refine TransitionSystem.keep (P := fun k : Kernel T S => t ∈ k.sleepList ∧
        k.wakeupTick t = (state (i + 1)).wakeupTick t ∧ k.unblocks t = (state i).unblocks t)
        (show i + 1 ≤ j from hij) (fun u hiu huj h => ?_) ⟨ht', rfl, hunblocks⟩
      obtain ⟨hmem, htick, hcount⟩ := (hsteps u (by omega)).sleeps_on h.1
        fun hlabel => h.2.1 ▸ hearly u hiu huj hlabel
      exact ⟨hmem, htick.trans h.2.1, hcount.trans h.2.2⟩
    refine ⟨⟨hasleep.1, hasleep.2.2⟩, fun hjN hlabel hdue => ?_⟩
    obtain ⟨hgone, hcount⟩ := (hlabel ▸ hsteps j hjN).wakes_up hasleep.1 (hasleep.2.1 ▸ hdue)
    exact ⟨hgone, hcount.trans (by rw [hasleep.2.2])⟩

/-- The initial thread sleeps for two ticks, while the idle thread runs. -/
theorem alarm_clock_two_ticks :
    let B : Boot (Fin 2) := ⟨0, 1, by decide⟩
    ∃ (state : Nat → Kernel (Fin 2) (Fin 1)) (label : Nat → KernelEvent (Fin 2) (Fin 1)),
      (system B).Run 4 state label ∧ 1 ∈ (state 3).sleepList ∧ (state 3).unblocks 1 = 0 ∧
        1 ∉ (state 4).sleepList ∧ (state 4).unblocks 1 = 1 := by
  intro B
  let events : List (KernelEvent (Fin 2) (Fin 1)) :=
    [.timerSleep 2, .timerSleepEnd, .timerInterrupt, .timerInterrupt]
  let state := TransitionSystem.after (TransitionSystem.orSelf (apply B)) (start B) events
  have hsteps : ∀ t, t < 4 → (state t).Enabled B (events.getD t .threadYield) ∧
      ((state t).apply B (events.getD t .threadYield)).isSome = true := by decide +kernel
  have hrun : (system B).Run 4 state fun t => events.getD t .threadYield :=
    TransitionSystem.Run.of_checked_labels (isStart_start B) events .threadYield hsteps
  have hawake : 1 ∉ (state 1).sleepList := by decide +kernel
  have hqueued : 1 ∈ (state 2).sleepList := by decide +kernel
  have hearly : (state 3).ticks < (state 2).wakeupTick 1 := by decide +kernel
  have hdue : (state 2).wakeupTick 1 ≤ (state 4).ticks := by decide +kernel
  have hnone : (state 1).unblocks 1 = 0 := by decide +kernel
  have hrange : ∀ i, i < 4 → (state i).InRange (events.getD i .threadYield) := by decide +kernel
  clear_value state
  obtain ⟨-, hsleep⟩ := (alarm_clock hrun hrange).2.2 1 1 (by decide) hawake hqueued
  obtain ⟨⟨hasleep, hcount⟩, hwoken⟩ := hsleep 3 (by decide) (by decide) (fun u h1 h2 _ => by
    obtain rfl : u = 2 := by omega
    exact hearly)
  obtain ⟨hgone, hcount'⟩ := hwoken (by decide) rfl hdue
  exact ⟨state, _, hrun, hasleep, hcount.trans hnone, hgone, hcount'.trans (by rw [hnone])⟩

end Runs
end Kernel
end Pintos
