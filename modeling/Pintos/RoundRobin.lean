import Pintos.AlarmClock

/-!
# Round robin

`schedule` runs the first thread of `ready_list`.  A thread that is unblocked or yields goes to the
end, and one that does not yield is made to by the `TIME_SLICE`-th timer interrupt.  So a step
adds threads at the end of the list, or takes the first one as well (`ReadyStep`), and **no ready
thread starves** (`no_starvation`): it runs before the running thread and all those in front of it
have used up a time slice each.
-/

namespace Pintos
open List

namespace Kernel
variable {T S : Type}

/-- The tick at which the time slice of the running thread is used up. -/
def sliceEnd (k : Kernel T S) : Int :=
  k.ticks + max 1 (timeSlice - k.threadTicks)

/-- Threads may become ready. -/
def Grows (k k' : Kernel T S) : Prop :=
  k.readyList <+: k'.readyList ∧ k'.sliceEnd = k.sliceEnd

/-- **What a step does to `ready_list`**, where `slice` is the end of the time slice so far. -/
inductive ReadyStep (B : Boot T) (ready : List T) (slice : Int) (k' : Kernel T S) : Prop
  | goesOn (hlist : ready <+: k'.readyList) (hslice : k'.sliceEnd ≤ slice)
  | switches {l : List T} (hlist : ready <+: l) (hrunning : k'.runningThread = l.headD B.idle)
      (hrest : k'.readyList = l.tail) (hslice : k'.sliceEnd ≤ slice + timeSlice)

section Steps
variable {B : Boot T} {k k₁ k' : Kernel T S} {ready : List T} {slice : Int}

theorem Grows.trans (h : Grows k k₁) (h' : Grows k₁ k') : Grows k k' :=
  ⟨h.1.trans h'.1, h'.2.trans h.2⟩

variable [DecidableEq T]

theorem threadUnblock_grows {t : T} (h : k.threadUnblock t = some k') : Grows k k' := by
  rw [threadUnblock_some h]
  exact ⟨prefix_append _ _, rfl⟩

theorem wakeupLoop_grows {tick : Int} {l : List T} (h : wakeupLoop tick l k = some k') :
    Grows k k' := by
  induction l generalizing k with
  | nil =>
    cases h
    exact ⟨prefix_rfl, rfl⟩
  | cons t rest ih =>
    unfold wakeupLoop at h
    split at h
    · obtain ⟨k₁, hunblock, h⟩ := of_bind h
      exact Grows.trans (threadUnblock_grows hunblock :) (ih h)
    · exact (ih h :)

theorem unblockLoop_grows {l : List T} (h : unblockLoop l k = some k') : Grows k k' := by
  induction l generalizing k with
  | nil =>
    cases h
    exact ⟨prefix_rfl, rfl⟩
  | cons t rest ih =>
    obtain ⟨k₁, hunblock, h⟩ := of_bind h
    exact Grows.trans (threadUnblock_grows hunblock :) (ih h)

/-- The switch may be behind a tick. -/
theorem schedule_ready (h : k.schedule B = some k') (hlist : ready <+: k.readyList)
    (hslice : k.sliceEnd ≤ slice + 1) : ReadyStep B ready slice k' := by
  obtain ⟨freed, rfl⟩ := schedule_some h
  refine .switches hlist rfl rfl ?_
  rw [sliceEnd] at hslice
  change k.ticks + max 1 (4 - 0) ≤ slice + 4
  omega

theorem threadBlock_ready (h : k.threadBlock B = some k') :
    ReadyStep B k.readyList k.sliceEnd k' := by
  obtain ⟨cur, _, h⟩ := of_bind h
  exact schedule_ready h prefix_rfl (Int.le.intro 1 rfl)

theorem threadYield_ready (h : k.threadYield B = some k') (hlist : ready <+: k.readyList)
    (hslice : k.sliceEnd ≤ slice + 1) : ReadyStep B ready slice k' := by
  obtain ⟨cur, _, h⟩ := of_bind h
  split at h
  · exact schedule_ready h hlist hslice
  · exact schedule_ready h (hlist.trans (prefix_append _ _)) hslice

theorem threadSleep_ready {tick : Int} (h : k.threadSleep B tick = some k') :
    ReadyStep B k.readyList k.sliceEnd k' := by
  obtain ⟨cur, _, h⟩ := of_bind h
  obtain ⟨_, _, h⟩ := of_bind h
  exact (threadBlock_ready h :)

/-- **`timer_interrupt`.**  The thread goes on, one tick further, or its time slice is used up. -/
theorem timerInterrupt_ready (h : k.timerInterrupt B = some k') :
    ReadyStep B k.readyList k.sliceEnd k' := by
  obtain ⟨⟨k₀, yields⟩, htick, h⟩ := of_bind h
  obtain ⟨_, _, hpure⟩ := of_bind htick
  cases hpure
  obtain ⟨k₁, hwakeup, h⟩ := of_bind h
  have hgrows : k.readyList <+: k₁.readyList ∧
      k₁.sliceEnd = k.ticks + 1 + max 1 (4 - (k.threadTicks + 1)) := by
    unfold wakeupDue at hwakeup
    split at hwakeup
    · exact (wakeupLoop_grows hwakeup :)
    · cases hwakeup
      exact ⟨prefix_rfl, rfl⟩
  have hend : k.sliceEnd = k.ticks + max 1 (4 - k.threadTicks) := rfl
  by_cases hslice : timeSlice ≤ k.threadTicks + 1
  · rw [if_pos (decide_eq_true hslice)] at h
    exact threadYield_ready h hgrows.1 (by omega)
  · rw [if_neg (by simpa using hslice)] at h
    cases h
    rw [timeSlice] at hslice
    exact .goesOn hgrows.1 (by omega)

variable [DecidableEq S]

theorem apply_ready {e : KernelEvent T S} (h : k.apply B e = some k') :
    ReadyStep B k.readyList k.sliceEnd k' := by
  have hgrows : Grows k k' → ReadyStep B k.readyList k.sliceEnd k' := fun h =>
    .goesOn h.1 (Int.le_of_eq h.2)
  cases e with
  | threadCreate t | timerSleep ticks =>
    obtain ⟨cur, _, h⟩ := of_bind h
    cases h
    exact hgrows ⟨prefix_rfl, rfl⟩
  | threadCreateEnd =>
    obtain ⟨cur, _, h⟩ := of_bind h
    obtain ⟨t, _, h⟩ := of_bind h
    exact hgrows (threadUnblock_grows h :)
  | threadYield => exact threadYield_ready h prefix_rfl (Int.le.intro 1 rfl)
  | threadExit =>
    obtain ⟨cur, _, h⟩ := of_bind h
    exact schedule_ready h prefix_rfl (Int.le.intro 1 rfl)
  | threadSleep tick => exact threadSleep_ready h
  | timerSleepEnd =>
    obtain ⟨cur, _, h⟩ := of_bind h
    obtain ⟨tick, _, h⟩ := of_bind h
    exact (threadSleep_ready h :)
  | semaDown s =>
    simp only [apply, semaDown] at h
    split at h
    · cases h
      exact hgrows ⟨prefix_rfl, rfl⟩
    · exact (threadBlock_ready h :)
  | semaTryDown s =>
    cases h
    exact hgrows ⟨prefix_rfl, rfl⟩
  | semaUp s =>
    simp only [apply, semaUp] at h
    split at h
    · cases h
      exact hgrows ⟨prefix_rfl, rfl⟩
    · exact hgrows (threadUnblock_grows h :)
  | blockThread =>
    obtain ⟨cur, _, h⟩ := of_bind h
    exact (threadBlock_ready h :)
  | unblockThreads => exact hgrows (unblockLoop_grows h)
  | timerInterrupt => exact timerInterrupt_ready h
  | idleBlock => exact (threadBlock_ready h :)

end Steps

/-- `t` is ready, and if every thread in front of it uses up its time slice, it runs from `tick`
on. -/
def Due (k : Kernel T S) (t : T) (tick : Int) : Prop :=
  ∃ before after, k.readyList = before ++ t :: after ∧
    k.sliceEnd + timeSlice * before.length ≤ tick

/-- **A ready thread becomes the running one, or is due no later.** -/
theorem ReadyStep.due {B : Boot T} {k k' : Kernel T S} {t : T} {tick : Int}
    (h : ReadyStep B k.readyList k.sliceEnd k') (hdue : k.Due t tick) :
    k'.runningThread = t ∨ k'.Due t tick := by
  obtain ⟨before, after, hready, hle⟩ := hdue
  cases h with
  | goesOn hlist hslice =>
    obtain ⟨more, hmore⟩ := hlist
    refine .inr ⟨before, after ++ more, ?_, by omega⟩
    rw [← hmore, hready, append_assoc, cons_append]
  | switches hlist hrunning hrest hslice =>
    obtain ⟨more, rfl⟩ := hlist
    rw [hready] at hrunning hrest
    cases before with
    | nil => exact .inl hrunning
    | cons u before =>
      refine .inr ⟨before, after ++ more, ?_, ?_⟩
      · rw [hrest, cons_append, cons_append, tail_cons, append_assoc, cons_append]
      · rw [length_cons] at hle
        push_cast at hle
        rw [timeSlice] at hslice hle ⊢
        omega

variable [DecidableEq T] [DecidableEq S]

/-- **No ready thread starves.**  In every run, a thread with `before` in front of it on
`ready_list` runs before so many ticks have gone by that these and the running thread have used up
a time slice each. -/
theorem no_starvation {B : Boot T} {N : Nat} {state : Nat → Kernel T S}
    {label : Nat → KernelEvent T S} (hrun : (system B).Run N state label) {i j : Nat} (hij : i ≤ j)
    (hj : j ≤ N) {t : T} {before after : List T}
    (hready : (state i).readyList = before ++ t :: after)
    (hticks : (state i).ticks + timeSlice * (before.length + 1) ≤ (state j).ticks) :
    ∃ m, i < m ∧ m ≤ j ∧ (state m).runningThread = t := by
  by_contra hnever
  have hdue : (state i).Due t ((state i).ticks + timeSlice * (before.length + 1)) := by
    refine ⟨before, after, hready, ?_⟩
    rw [sliceEnd, timeSlice]
    omega
  obtain ⟨before', after', -, hle⟩ := TransitionSystem.keep (P := (Due · t _)) hij
    (fun u hiu huj h => (apply_ready (hrun.step u (by omega)).2).due h |>.resolve_left fun hu =>
      hnever ⟨u + 1, by omega, huj, hu⟩) hdue
  rw [sliceEnd, timeSlice] at hle
  rw [timeSlice] at hticks
  omega

/-- The initial thread creates another one and goes on; four timer interrupts later the other one
has run. -/
theorem no_starvation_created :
    let B : Boot (Fin 3) := ⟨0, 1, by decide⟩
    ∃ (state : Nat → Kernel (Fin 3) (Fin 1)) (label : Nat → KernelEvent (Fin 3) (Fin 1)),
      (system B).Run 6 state label ∧ ∃ m, m ≤ 6 ∧ (state m).runningThread = 2 := by
  intro B
  let events : List (KernelEvent (Fin 3) (Fin 1)) :=
    [.threadCreate 2, .threadCreateEnd] ++ List.replicate 4 .timerInterrupt
  let state := TransitionSystem.after (TransitionSystem.orSelf (apply B)) (start B) events
  have hsteps : ∀ t, t < 6 → (state t).Enabled B (events.getD t .threadYield) ∧
      ((state t).apply B (events.getD t .threadYield)).isSome = true := by decide +kernel
  have hrun : (system B).Run 6 state fun t => events.getD t .threadYield :=
    TransitionSystem.Run.of_checked_labels (isStart_start B) events .threadYield hsteps
  have hready : (state 2).readyList = [] ++ 2 :: [] := by decide +kernel
  have hticks : (state 2).ticks + timeSlice * (([] : List (Fin 3)).length + 1) ≤
      (state 6).ticks := by decide +kernel
  clear_value state
  obtain ⟨m, -, hm, hruns⟩ :=
    no_starvation hrun (show 2 ≤ 6 by decide) (Nat.le_refl 6) hready hticks
  exact ⟨state, _, hrun, m, hm, hruns⟩

end Kernel
end Pintos
