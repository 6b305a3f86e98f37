import Pintos.Condition

/-!
# Signals

What whole calls of `cond_signal` and `cond_broadcast` do, with everything that other
threads do meanwhile, and what brings a thread back from `cond_wait`.  A call lasts from
the instant at which it is made to the instant at which it has returned (`Call`); the
thread holds the lock all the while.
-/

namespace Pintos
namespace Monitor
open Function (update update_of_ne)
variable {T : Type}

/-! ## Calls -/

section Calls
variable [DecidableEq T] {s s' : Monitor T} {e : CondEvent T} {t u w : T} {broadcast : Bool}

/-- The steps of the others leave a thread where it is, and its semaphore, unless they up that. -/
theorem apply_of_ne (hcode : s.apply e = some s') (ht : t ≠ e.thread) :
    s'.pc t = s.pc t ∧ s'.seen t = s.seen t ∧
      (s'.semaphore t = s.semaphore t ∨ ∃ u b, e = .semaUp u ∧ s.pc u = .upping t b) := by
  have hupdate : ∀ {α : Type} (f : T → α) (x : α), update f e.thread x t = f t :=
    fun f x => update_of_ne ht x f
  cases e with
  | lock e =>
    cases hcode
    refine ⟨?_, rfl, .inl rfl⟩
    cases e with
    | semaUp u | setHolder u =>
      simp only [afterLock]
      split
      · exact hupdate s.pc _
      · rfl
    | _ => rfl
  | enqueue u | semaDown u | retry u =>
    cases hcode
    exact ⟨hupdate s.pc _, rfl, .inl (hupdate s.semaphore _)⟩
  | callWait u =>
    obtain ⟨-, -, hcode⟩ := of_bind hcode
    cases hcode
    exact ⟨hupdate s.pc _, rfl, .inl rfl⟩
  | callSignal u =>
    obtain ⟨-, -, hcode⟩ := of_bind hcode
    cases hcode
    exact ⟨hupdate s.pc _, hupdate s.seen _, .inl rfl⟩
  | callBroadcast u =>
    cases hcode
    exact ⟨hupdate s.pc _, hupdate s.seen _, .inl rfl⟩
  | test u =>
    rw [apply] at hcode
    split at hcode
    · cases hcode
      exact ⟨hupdate s.pc _, rfl, .inl rfl⟩
    · obtain ⟨-, -, hcode⟩ := of_bind hcode
      cases hcode
      exact ⟨hupdate s.pc _, rfl, .inl rfl⟩
  | pop u =>
    rw [apply] at hcode
    split at hcode
    · cases hcode
      rw [popped]
      split <;> exact ⟨hupdate s.pc _, rfl, .inl rfl⟩
    · cases hcode
  | semaUp u =>
    rw [apply] at hcode
    split at hcode
    · next w b hpc =>
      cases hcode
      refine ⟨hupdate s.pc _, rfl, ?_⟩
      by_cases hw : t = w
      · exact .inr ⟨u, b, rfl, hw ▸ hpc⟩
      · exact .inl (update_of_ne hw _ _)
    · cases hcode

omit [DecidableEq T] in
/-- In a part that needs the lock, a thread has one step to take. -/
theorem Inv.event_of_critical (h : s.Inv) (he : s.Enabled e)
    (hcritical : (s.pc e.thread).critical = true) :
    e = .enqueue e.thread ∧ s.pc e.thread = .enqueuing ∨
    e = .test e.thread ∧ s.pc e.thread = .broadcasting ∨
    (e = .pop e.thread ∧ ∃ b, s.pc e.thread = .signalling b) ∨
    e = .semaUp e.thread ∧ ∃ w b, s.pc e.thread = .upping w b := by
  have hlock := (h.lockPc _).holding hcritical
  cases e with
  | lock e =>
    -- the lock is held, and is not to be released here
    obtain ⟨he, hpermits⟩ := he
    cases e with
    | callRelease t =>
      simp only [CondEvent.thread, LockEvent.thread] at hcritical
      rcases hpermits with hp | hp <;> rw [hp] at hcritical <;> cases hcritical
    | retry t => exact absurd (hlock.symm.trans he.1) nofun
    | _ t => exact absurd (hlock.symm.trans he) nofun
  | callWait t | callSignal t | callBroadcast t | retry t =>
    simp only [CondEvent.thread, he.1] at hcritical
    cases hcritical
  | semaDown t =>
    simp only [CondEvent.thread, show s.pc t = .waiting from he] at hcritical
    cases hcritical
  | enqueue t => exact .inl ⟨rfl, he⟩
  | test t => exact .inr (.inl ⟨rfl, he⟩)
  | pop t =>
    refine .inr (.inr (.inl ⟨rfl, ?_⟩))
    simp only [Enabled, CondEvent.thread] at he ⊢
    cases hp : s.pc t with
    | signalling b => exact ⟨b, rfl⟩
    | _ => rw [hp] at he; cases he
  | semaUp t =>
    refine .inr (.inr (.inr ⟨rfl, ?_⟩))
    simp only [Enabled, CondEvent.thread] at he ⊢
    cases hp : s.pc t with
    | upping w b => exact ⟨w, b, rfl⟩
    | _ => rw [hp] at he; cases he

/-- The thread is in a call of `cond_signal`, or of `cond_broadcast`. -/
def InCall (broadcast : Bool) : CondPc T → Prop
  | .broadcasting => broadcast = true
  | .signalling b | .upping _ b => b = broadcast
  | _ => False

/-- How a call ends: a signal finds the queue empty, or ups the thread it has chosen; a
broadcast finds the queue empty. -/
inductive Ends (s : Monitor T) (t : T) : Bool → Monitor T → Prop
  | unheard : s.pc t = .signalling false → s.waiters = [] → Ends s t false (s.goto t .outside)
  | signal {w : T} : s.pc t = .upping w false → Ends s t false (s.upped t w false)
  | broadcast : s.pc t = .broadcasting → s.waiters = [] → Ends s t true (s.goto t .outside)

/-- **A call goes on or ends**, and what it found in the queue stays recorded. -/
theorem Inv.call_step (h : s.Inv) (he : s.Enabled e) (hcode : s.apply e = some s')
    (hin : InCall broadcast (s.pc t)) :
    s'.seen t = s.seen t ∧ (InCall broadcast (s'.pc t) ∨ Ends s t broadcast s') := by
  by_cases ht : t = e.thread
  · have hcritical : (s.pc e.thread).critical = true := by
      rw [ht] at hin
      cases hp : s.pc e.thread <;> rw [hp] at hin <;> first | rfl | cases hin
    rcases h.event_of_critical he hcritical with ⟨heq, hp⟩ | ⟨heq, hp⟩ | ⟨heq, b, hp⟩ |
      ⟨heq, w, b, hp⟩
    all_goals rw [← ht] at heq hp; rw [hp] at hin; subst heq
    · cases hin
    · obtain rfl : broadcast = true := hin
      rw [apply] at hcode
      split at hcode
      · next hempty =>
        cases hcode
        exact ⟨rfl, .inr (.broadcast hp hempty)⟩
      · obtain ⟨-, -, hcode⟩ := of_bind hcode
        cases hcode
        exact ⟨rfl, .inl (by simp [goto, InCall])⟩
    · obtain rfl : b = broadcast := hin
      simp only [apply, hp, Option.some.injEq] at hcode
      subst hcode
      rw [Monitor.popped]
      split
      · next hempty =>
        refine ⟨rfl, ?_⟩
        cases b
        · exact .inr (.unheard hp hempty)
        · exact .inl (by simp [goto, InCall, CondPc.afterSignal])
      · exact ⟨rfl, .inl (by simp [InCall])⟩
    · obtain rfl : b = broadcast := hin
      simp only [apply, hp, Option.some.injEq] at hcode
      subst hcode
      refine ⟨rfl, ?_⟩
      cases b
      · exact .inr (.signal hp)
      · exact .inl (by simp [Monitor.upped, InCall, CondPc.afterSignal])
  · obtain ⟨hpc, hseen, -⟩ := apply_of_ne hcode ht
    exact ⟨hseen, .inl (hpc ▸ hin)⟩

/-! ## Waits -/

/-- **A thread that is able to return stays so** until it has returned. -/
theorem Inv.able_step (h : s.Inv) (he : s.Enabled e) (hcode : s.apply e = some s')
    (hable : s.Able w) : s'.Able w ∨ s'.pc w = .outside := by
  by_cases hw : w = e.thread
  · have hcritical : (s.pc w).critical = false := Bool.eq_false_iff.mpr fun ht => hable.ne ht rfl
    cases e with
    | lock e =>
      cases hcode
      -- `cond_wait` goes on by one, or has returned
      cases e with
      | semaUp t =>
        obtain rfl : w = t := hw
        by_cases hp : s.pc w = .releasing
        · rcases hable with hable | ⟨-, hsema⟩
          · rw [hp] at hable
            cases hable
          · exact .inl (.inr ⟨by simp [afterLock, hp, CondPc.queued], hsema⟩)
        · exact .inl (hable.congr (by simp [afterLock, hp]) rfl)
      | setHolder t =>
        obtain rfl : w = t := hw
        by_cases hp : s.pc w = .reacquiring
        · exact .inr (by simp [afterLock, hp])
        · exact .inl (hable.congr (by simp [afterLock, hp]) rfl)
      | _ => exact .inl (hable.congr rfl rfl)
    | semaDown t | retry t =>
      obtain rfl : w = t := hw
      cases hcode
      rcases hable with hable | ⟨-, hpos, -⟩
      · simp [Enabled, hable] at he
      · exact .inl (.inl (by simp [tested, Semaphore.down_of_pos hpos]))
    | callWait t | callSignal t | callBroadcast t =>
      obtain rfl : w = t := hw
      simp [Able, he.1, CondPc.queued] at hable
    | enqueue t | test t =>
      obtain rfl : w = t := hw
      rw [show s.pc w = _ from he] at hcritical
      cases hcritical
    | pop t | semaUp t =>
      obtain rfl : w = t := hw
      cases hp : s.pc w <;> rw [hp] at hcritical <;>
        first
        | cases hcritical; done
        | simp [Enabled, hp, CondPc.isSignalling, CondPc.isUpping] at he
  · obtain ⟨hpc, -, hsema | ⟨t, b, rfl, ht⟩⟩ := apply_of_ne hcode hw
    · exact .inl (hable.congr hpc hsema)
    · simp only [apply, ht, Option.some.injEq] at hcode
      exact .inl (hcode ▸ (h.upped_step ht).2)

/-- The thread is in `cond_wait`. -/
def InWait : CondPc T → Bool
  | .enqueuing | .releasing | .waiting | .downing | .reacquiring => true
  | .outside | .broadcasting | .signalling _ | .upping _ _ => false

/-- **A thread returns from `cond_wait`** when it has acquired the lock again. -/
theorem reacquiring_of_return (he : s.Enabled e) (hcode : s.apply e = some s')
    (hin : InWait (s.pc t) = true) (hout : s'.pc t = .outside) : s.pc t = .reacquiring := by
  have hne : s.pc t ≠ .outside := by
    intro hp
    rw [hp] at hin
    cases hin
  by_cases ht : t = e.thread
  · cases e with
    | lock e =>
      cases hcode
      cases e with
      | semaUp u =>
        obtain rfl : t = u := ht
        by_cases hp : s.pc t = .releasing
        · simp [afterLock, hp] at hout
        · simp [afterLock, hp, hne] at hout
      | setHolder u =>
        obtain rfl : t = u := ht
        by_cases hp : s.pc t = .reacquiring
        · exact hp
        · simp [afterLock, hp, hne] at hout
      | _ => exact absurd hout hne
    | callWait u | callSignal u | callBroadcast u =>
      obtain rfl : t = u := ht
      exact absurd he.1 hne
    | enqueue u =>
      obtain rfl : t = u := ht
      cases hcode
      simp [enqueued] at hout
    | semaDown u | retry u =>
      obtain rfl : t = u := ht
      cases hcode
      simp only [tested, Function.update_self] at hout
      split at hout <;> cases hout
    | test u =>
      obtain rfl : t = u := ht
      rw [show s.pc t = .broadcasting from he] at hin
      cases hin
    | pop u | semaUp u =>
      obtain rfl : t = u := ht
      cases hp : s.pc t <;> rw [hp] at hin <;>
        first | cases hin; done | simp [Enabled, hp, CondPc.isSignalling, CondPc.isUpping] at he
  · exact absurd ((apply_of_ne hcode ht).1.symm.trans hout) hne

end Calls

/-! ## Runs -/

section Runs
variable [DecidableEq T] {N : Nat} {state : Nat → Monitor T} {label : Nat → CondEvent T}

/-- **A call** that is made at `i`, by the event `e`, and has returned at `j`. -/
structure Call (state : Nat → Monitor T) (label : Nat → CondEvent T) (e : CondEvent T)
    (i j : Nat) : Prop where
  made : label i = e
  lt : i < j
  inside : ∀ k, i < k → k < j → (state k).pc e.thread ≠ .outside
  returned : (state j).pc e.thread = .outside

/-- The call of `cond_broadcast`, or of `cond_signal`. -/
def callEvent (broadcast : Bool) (t : T) : CondEvent T :=
  if broadcast then .callBroadcast t else .callSignal t

omit [DecidableEq T] in
theorem thread_callEvent (broadcast : Bool) (t : T) : (callEvent broadcast t).thread = t := by
  cases broadcast <;> rfl

variable {t u w : T} {i j : Nat}

theorem inv_run (hrun : system.Run N state label) {k : Nat} (hk : k ≤ N) : (state k).Inv :=
  inv_reachable (hrun.reachable hk)

/-- A call records the queue it finds. -/
theorem call_begins (broadcast : Bool) (hrun : system.Run N state label) (hi : i < N)
    (hmade : label i = callEvent broadcast t) :
    InCall broadcast ((state (i + 1)).pc t) ∧ (state (i + 1)).seen t = (state i).waiters := by
  obtain ⟨-, hcode⟩ := hrun.step i hi
  rw [hmade] at hcode
  cases broadcast with
  | true =>
    rw [← Option.some.inj hcode]
    simp [called, InCall]
  | false =>
    obtain ⟨-, -, hcode⟩ := of_bind hcode
    rw [← Option.some.inj hcode]
    simp [called, InCall]

section
variable (broadcast : Bool) (hrun : system.Run N state label) (hj : j ≤ N)
  (hcall : Call state label (callEvent broadcast t) i j)
include broadcast hrun hj hcall

/-- **During a call** the thread is in it, and the record stays. -/
theorem call_goes_on :
    ∀ k, i < k → k < j →
      InCall broadcast ((state k).pc t) ∧ (state k).seen t = (state i).waiters := by
  intro k hik
  induction k, hik using Nat.le_induction with
  | base =>
    intro _
    exact call_begins broadcast hrun (by have := hcall.lt; omega) hcall.made
  | succ k hik ih =>
    intro hkj
    obtain ⟨hin, hseen⟩ := ih (by omega)
    obtain ⟨he, hcode⟩ := hrun.step k (by omega)
    obtain ⟨hseen', hin' | hends⟩ := (inv_run hrun (by omega)).call_step he hcode hin
    · exact ⟨hin', hseen'.trans hseen⟩
    · have hout : (state (k + 1)).pc t = .outside := by
        generalize state (k + 1) = s' at hends
        cases hends <;> simp [goto, upped, CondPc.afterSignal]
      have hinside := hcall.inside (k + 1) (by omega) hkj
      rw [thread_callEvent] at hinside
      exact absurd hout hinside

/-- **The last step of a call.** -/
theorem call_ends :
    ∃ k, i < k ∧ k + 1 = j ∧ Ends (state k) t broadcast (state j) ∧
      (state k).seen t = (state i).waiters := by
  have hlt := hcall.lt
  have hreturned := hcall.returned
  rw [thread_callEvent] at hreturned
  obtain ⟨k, rfl⟩ : ∃ k, j = k + 1 := ⟨j - 1, by omega⟩
  have hout : ∀ {p : CondPc T}, InCall broadcast p → p ≠ .outside := by
    rintro p hp rfl
    cases hp
  have hik : i < k := by
    refine Nat.lt_of_le_of_ne (by omega) fun heq => ?_
    subst heq
    exact hout (call_begins broadcast hrun (by omega) hcall.made).1 hreturned
  obtain ⟨hin, hseen⟩ := call_goes_on broadcast hrun hj hcall k hik (by omega)
  obtain ⟨he, hcode⟩ := hrun.step k (by omega)
  obtain ⟨-, hin' | hends⟩ := (inv_run hrun (by omega)).call_step he hcode hin
  · exact absurd hreturned (hout hin')
  · exact ⟨k, hik, rfl, hends, hseen⟩

end

omit [DecidableEq T] in
/-- A thread that is able to return has been chosen once. -/
theorem Inv.chosen_of_able {s : Monitor T} (h : s.Inv) (hable : s.Able w) : s.chosen w = 1 := by
  rcases hable with hp | ⟨hqueued, hpos, -⟩
  · exact h.returning w hp
  · exact ((h.upped w hqueued).mp hpos).1

/-- **A signal chooses the thread that entered first**, which is able to return when the
call has returned, and no other. -/
theorem signal_chooses (hrun : system.Run N state label) (hj : j ≤ N)
    (hcall : Call state label (.callSignal t) i j) (hsome : ∃ u, (state i).Unsignalled u) :
    ∃ w, (state i).Unsignalled w ∧
      (∀ u, (state i).Unsignalled u → u ≠ w → (state i).ticket w < (state i).ticket u) ∧
      (state j).chosen w = 1 ∧ (state j).Able w ∧
      ∀ u, (state i).Unsignalled u → u ≠ w → (state j).Unsignalled u := by
  have hinv := inv_run hrun (show i ≤ N by have := hcall.lt; omega)
  obtain ⟨k, hik, rfl, hends, hseen⟩ := call_ends false hrun hj hcall
  have hinv' := inv_run hrun (show k ≤ N by omega)
  have hinvj := inv_run hrun hj
  generalize state (k + 1) = s' at hends hinvj ⊢
  obtain ⟨u₀, hu₀⟩ := hsome
  rw [← hinv.mem_waiters] at hu₀
  have hprogress := hinv'.call t
  cases hends with
  | unheard hp hempty =>
    rw [CallOk, hp] at hprogress
    obtain ⟨done, hdone, hfalse, -⟩ := hprogress
    rw [hseen, hfalse rfl, hempty] at hdone
    rw [hdone] at hu₀
    cases hu₀
  | @signal w hp =>
    rw [CallOk, hp] at hprogress
    obtain ⟨done, hdone, hfalse, -⟩ := hprogress
    rw [hseen, hfalse rfl] at hdone
    have hqueue : (state i).waiters = w :: (state k).waiters := hdone
    obtain ⟨-, hable⟩ := hinv'.upped_step hp
    have hsorted := hinv.sorted
    rw [hqueue, List.pairwise_cons] at hsorted
    have hrest : ∀ u, (state i).Unsignalled u → u ≠ w → u ∈ (state k).waiters := by
      intro u hu huw
      rw [← hinv.mem_waiters, hqueue, List.mem_cons] at hu
      exact hu.resolve_left huw
    refine ⟨w, ?_, fun u hu huw => hsorted.1 u (hrest u hu huw), hinvj.chosen_of_able hable, hable,
      fun u hu huw => ?_⟩
    · rw [← hinv.mem_waiters, hqueue]
      exact List.mem_cons_self
    · rw [← hinvj.mem_waiters]
      exact hrest u hu huw

/-- The step leaves the condition and the waiting threads as they are. -/
def SameCondition (s s' : Monitor T) : Prop :=
  s'.waiters = s.waiters ∧ s'.semaphore = s.semaphore ∧ s'.chosen = s.chosen ∧
    s'.ticket = s.ticket ∧ s'.entries = s.entries

/-- **A signal nobody waits for does nothing.** -/
theorem signal_unheard (hrun : system.Run N state label) (hj : j ≤ N)
    (hcall : Call state label (.callSignal t) i j) (hnone : ∀ u, ¬(state i).Unsignalled u) {k : Nat}
    (hik : i ≤ k) (hkj : k < j) (hthread : (label k).thread = t) :
    SameCondition (state k) (state (k + 1)) := by
  obtain ⟨he, hcode⟩ := hrun.step k (by omega)
  have hinv := inv_run hrun (show i ≤ N by omega)
  have hempty : (state i).waiters = [] := by
    refine List.eq_nil_iff_forall_not_mem.mpr fun u hu => ?_
    exact hnone u ((hinv.mem_waiters u).mp hu)
  rcases Nat.eq_or_lt_of_le hik with rfl | hlt
  · rw [hcall.made] at hcode
    obtain ⟨-, -, hcode⟩ := of_bind hcode
    rw [← Option.some.inj hcode]
    exact ⟨rfl, rfl, rfl, rfl, rfl⟩
  · obtain ⟨hin, hseen⟩ := call_goes_on false hrun hj hcall k hlt hkj
    have hinv' := inv_run hrun (show k ≤ N by omega)
    have hprogress := hinv'.call t
    rw [CallOk] at hprogress
    cases hp : (state k).pc t with
    | signalling b =>
      rw [hp] at hin hprogress
      obtain rfl : b = false := hin
      obtain ⟨done, hdone, hfalse, -⟩ := hprogress
      rw [hseen, hempty, hfalse rfl] at hdone
      have hcritical : ((state k).pc (label k).thread).critical = true := by
        rw [hthread, hp]
        rfl
      rcases hinv'.event_of_critical he hcritical with ⟨-, hq⟩ | ⟨-, hq⟩ | ⟨heq, -⟩ |
        ⟨-, w, b, hq⟩
      · rw [hthread, hp] at hq
        cases hq
      · rw [hthread, hp] at hq
        cases hq
      · rw [heq, hthread] at hcode
        simp only [apply, hp, Option.some.injEq, popped,
          show (state k).waiters = [] from hdone.symm] at hcode
        rw [← hcode]
        exact ⟨rfl, rfl, rfl, rfl, rfl⟩
      · rw [hthread, hp] at hq
        cases hq
    | upping w b =>
      rw [hp] at hprogress
      obtain ⟨done, hdone, -⟩ := hprogress
      rw [hseen, hempty] at hdone
      simp at hdone
    | _ =>
      rw [hp] at hin
      cases hin

/-- **A broadcast chooses everybody who entered before it.** -/
theorem broadcast_chooses (hrun : system.Run N state label) (hj : j ≤ N)
    (hcall : Call state label (.callBroadcast t) i j) (hu : (state i).Unsignalled u) :
    (state j).chosen u = 1 ∧ (state j).Able u := by
  have hinv := inv_run hrun (show i ≤ N by have := hcall.lt; omega)
  obtain ⟨k, hik, rfl, hends, hseen⟩ := call_ends true hrun hj hcall
  have hinv' := inv_run hrun (show k ≤ N by omega)
  have hinvj := inv_run hrun hj
  generalize state (k + 1) = s' at hends hinvj ⊢
  cases hends with
  | broadcast hp hempty =>
    have hprogress := hinv'.call t
    rw [CallOk, hp] at hprogress
    obtain ⟨done, hdone, -, hall⟩ := hprogress
    rw [hseen, hempty] at hdone
    rw [← hinv.mem_waiters, hdone] at hu
    have hable : (state k).Able u := hall u (by simpa using hu)
    have hut := hable.ne (t := t) (by rw [hp]; rfl)
    have hable' : ((state k).goto t .outside).Able u :=
      hable.congr (update_of_ne hut _ _) rfl
    exact ⟨hinvj.chosen_of_able hable', hable'⟩

/-- **No signal is lost.**  In every run of any threads that use a condition with its
lock held:

* a signal that is called while threads wait that have not been signalled has, when it
  returns, chosen one of them, the one that entered first; that one is able to return, and
  the others have still not been signalled;
* a thread that is able to return is not blocked in its `sema_down`, and stays able to
  return until it has returned;
* a thread that returns from `cond_wait` has been chosen by exactly one signal;
* a signal that is called while no such thread waits changes nothing;
* a broadcast has, when it returns, chosen every thread that entered before it. -/
theorem no_signal_lost (hrun : system.Run N state label) :
    (∀ t i j, j ≤ N → Call state label (.callSignal t) i j → (∃ u, (state i).Unsignalled u) →
      ∃ w, (state i).Unsignalled w ∧
        (∀ u, (state i).Unsignalled u → u ≠ w → (state i).ticket w < (state i).ticket u) ∧
        (state j).chosen w = 1 ∧ (state j).Able w ∧
        ∀ u, (state i).Unsignalled u → u ≠ w → (state j).Unsignalled u) ∧
    (∀ i, i ≤ N → ∀ w, (state i).Able w →
      ((state i).pc w = .downing → w ∈ ((state i).semaphore w).woken) ∧
      (i < N → (state (i + 1)).Able w ∨ (state (i + 1)).pc w = .outside)) ∧
    (∀ i, i < N → ∀ t, InWait ((state i).pc t) = true → (state (i + 1)).pc t = .outside →
      (state i).chosen t = 1) ∧
    (∀ t i j, j ≤ N → Call state label (.callSignal t) i j → (∀ u, ¬(state i).Unsignalled u) →
      ∀ k, i ≤ k → k < j → (label k).thread = t → SameCondition (state k) (state (k + 1))) ∧
    ∀ t i j, j ≤ N → Call state label (.callBroadcast t) i j → ∀ u, (state i).Unsignalled u →
      (state j).chosen u = 1 ∧ (state j).Able u := by
  refine ⟨fun t i j hj hcall hsome => signal_chooses hrun hj hcall hsome,
    fun i hi w hable => ⟨fun hp => ?_, fun hlt => ?_⟩, fun i hi t hin hout => ?_,
    fun t i j hj hcall hnone k hik hkj ht => signal_unheard hrun hj hcall hnone hik hkj ht,
    fun t i j hj hcall u hu => broadcast_chooses hrun hj hcall hu⟩
  · have hsema := (inv_run hrun hi).semaphore w
    rw [hp] at hsema
    rcases hable with hable | ⟨-, hpos, -⟩
    · rw [hp] at hable
      cases hable
    · rcases hsema with ⟨hzero, -⟩ | ⟨-, hwoken⟩
      · rw [hzero] at hpos
        exact absurd hpos (Nat.lt_irrefl 0)
      · rw [hwoken]
        exact List.mem_singleton_self w
  · obtain ⟨he, hcode⟩ := hrun.step i hlt
    exact (inv_run hrun hi).able_step he hcode hable
  · obtain ⟨he, hcode⟩ := hrun.step i hi
    exact (inv_run hrun (Nat.le_of_lt hi)).returning t (reacquiring_of_return he hcode hin hout)

/-- A signal falls between a thread's release of the lock and its `sema_down`. -/
theorem no_signal_lost_early :
    ∃ (state : Nat → Monitor Bool) (label : Nat → CondEvent Bool), system.Run 15 state label ∧
      (state 13).pc false = .waiting ∧ (state 14).chosen false = 1 ∧ (state 14).Able false ∧
      (state 15).pc false = .reacquiring := by
  let events : List (CondEvent Bool) := [.lock (.callAcquire false), .lock (.semaDown false),
    .lock (.setHolder false), .callWait false, .enqueue false, .lock (.callRelease false),
    .lock (.clearHolder false), .lock (.semaUp false), .lock (.callAcquire true),
    .lock (.semaDown true), .lock (.setHolder true), .callSignal true, .pop true, .semaUp true,
    .semaDown false]
  let state := TransitionSystem.after (TransitionSystem.orSelf apply) start events
  let label := fun n => events.getD n (.pop true)
  have hrun : system.Run 15 state label := by
    refine TransitionSystem.Run.of_checked_labels ?_ events (.pop true) ?_
    · rfl
    · decide +kernel
  have hcall : Call state label (.callSignal true) 11 14 := by
    refine ⟨rfl, by omega, fun k hk hk' => ?_, by decide +kernel⟩
    obtain rfl | rfl : k = 12 ∨ k = 13 := by omega
    · decide +kernel
    · decide +kernel
  have hfalse : (state 11).Unsignalled false := by
    unfold Unsignalled
    decide +kernel
  have htrue : ¬(state 11).Unsignalled true := by
    unfold Unsignalled
    decide +kernel
  obtain ⟨w, hw, -, hchosen, hable, -⟩ :=
    (no_signal_lost hrun).1 true 11 14 (by omega) hcall ⟨false, hfalse⟩
  cases w with
  | true => exact absurd hw htrue
  | false =>
    exact ⟨state, label, hrun, by decide +kernel, hchosen, hable, by decide +kernel⟩

end Runs

end Monitor
end Pintos
