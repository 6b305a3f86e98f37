import Mathlib.Data.List.Nodup
import Pintos.Thread

/-!
# The places of threads

**Every thread has one place** (`Placed`): it is on one list, or on none, and the
lists and statuses of the kernel are what the places say.  That a thread is on no two
lists, and on none twice, is thus no matter of the lists at all; what has to be seen is
that every function of the kernel moves threads from place to place (`Placed.move`).
Who may be on no list is said once (`Place.Allowed`): the running thread, the idle
thread, the initial thread after its exit, and a thread that is being constructed.

Two moves happen in every switch.  The running thread goes to its new place, and as
long as no thread is running, the next one is taken from `ready_list`
(`Placed.switched`).  A dying thread's new place is among the freed pages, the initial
thread's apart.
-/

namespace Pintos
open Function (update update_of_ne update_self)

/-- The lists a thread can be on, and the freed pages. -/
inductive ThreadQueue (S : Type) where
  | ready
  | waiters (s : S)
  | sleep
  | blocked
  | freed
  deriving DecidableEq

/-- The status of the threads on a list. -/
def ThreadQueue.status {S : Type} : ThreadQueue S → ThreadStatus
  | .ready => .ready
  | .waiters _ | .sleep | .blocked => .blocked
  | .freed => .dying

/-- Where a thread is: not there yet, being constructed, on a list, or on none. -/
inductive Place (S : Type) where
  | unused
  | created
  | on (q : ThreadQueue S)
  | off (status : ThreadStatus)
  deriving DecidableEq

namespace Place
variable {T S : Type}

def status : Place S → Option ThreadStatus
  | .unused => none
  | .created => some .blocked
  | .on q => some q.status
  | .off status => some status

/-- **The places a thread may be in.**  The idle thread is never on a list; of the
others only the running thread and the initial thread after its exit are on none. -/
def Allowed (B : Boot T) (t : T) : Place S → Prop
  | .unused | .created => t ≠ B.idle
  | .on .freed => t ≠ B.idle ∧ t ≠ B.initial
  | .on .ready | .on (.waiters _) | .on .sleep | .on .blocked => t ≠ B.idle
  | .off .running => True
  | .off .ready | .off .blocked => t = B.idle
  | .off .dying => t = B.initial

theorem Allowed.ne_idle {B : Boot T} {t : T} {q : ThreadQueue S}
    (h : (Place.on q).Allowed B t) : t ≠ B.idle := by
  cases q with
  | freed => exact h.1
  | ready | waiters s | sleep | blocked => exact h

theorem status_eq_running {p : Place S} : p.status = some .running ↔ p = .off .running := by
  cases p with
  | unused | created => simp [status]
  | on q => cases q <;> simp [status, ThreadQueue.status]
  | off st => simp [status]

end Place

namespace Kernel
variable {T S : Type}

/-- The list behind its name. -/
def queue (k : Kernel T S) : ThreadQueue S → List T
  | .ready => k.readyList
  | .waiters s => (k.semaphores s).waiters
  | .sleep => k.sleepList
  | .blocked => k.blockedThreads
  | .freed => k.freed

/-- **The kernel is what the places say**, whether or not a thread is running. -/
structure Placed (B : Boot T) (k : Kernel T S) (place : T → Place S) : Prop where
  status : ∀ t, k.status t = (place t).status
  mem : ∀ q t, t ∈ k.queue q ↔ place t = .on q
  nodup : ∀ q, (k.queue q).Nodup
  allowed : ∀ t, (place t).Allowed B t
  created : ∀ t, place t = .created ↔ ∃ c, k.creating c = some t
  creator : ∀ c c' t, k.creating c = some t → k.creating c' = some t → c = c'

/-- **The invariant between steps**: moreover one thread is running, the current one. -/
structure Inv (B : Boot T) (k : Kernel T S) (place : T → Place S) : Prop
    extends Placed B k place where
  running : ∀ t, place t = .off .running ↔ t = k.runningThread

/-- The call succeeds, and the invariant holds after it. -/
def Safe (B : Boot T) (result : Option (Kernel T S)) : Prop :=
  ∃ k, result = some k ∧ ∃ place, k.Inv B place

namespace Placed
variable {B : Boot T} {k : Kernel T S} {place : T → Place S} {t : T}

theorem isThread (h : k.Placed B place) (hunused : place t ≠ .unused)
    (hfreed : place t ≠ .on .freed) : k.IsThread t := by
  refine ⟨?_, fun hmem => hfreed ((h.mem .freed t).mp hmem)⟩
  rw [h.status t]
  cases hp : place t with
  | unused => exact absurd hp hunused
  | created | on q | off st => simp [Place.status]

theorem idle_off (h : k.Placed B place) :
    ∃ status, place B.idle = .off status ∧ status ≠ .dying := by
  have hallowed := h.allowed B.idle
  cases hp : place B.idle with
  | unused | created =>
    rw [hp] at hallowed
    exact absurd rfl hallowed
  | on q =>
    rw [hp] at hallowed
    exact absurd rfl hallowed.ne_idle
  | off st =>
    refine ⟨st, rfl, ?_⟩
    rintro rfl
    rw [hp] at hallowed
    exact B.initial_ne_idle hallowed.symm

end Placed

/-! ## Moving a thread -/

section Moves
variable [DecidableEq T] {B : Boot T} {k k' : Kernel T S} {place : T → Place S} {t : T}
  {p : Place S}

section
variable (h : k.Placed B place)
include h

section
variable (hne : place t ≠ p) (hsame : ∀ q, place t ≠ .on q → p ≠ .on q → k'.queue q = k.queue q)
  (hleave : ∀ q, place t = .on q → k'.queue q = (k.queue q).erase t)
  (hjoin : ∀ q, p = .on q → k'.queue q = k.queue q ++ [t])
include hne hsame hleave hjoin

/-- A list after `t` has moved to the place `p`. -/
theorem Placed.queue_move (q : ThreadQueue S) :
    (k'.queue q).Nodup ∧ ∀ u, u ∈ k'.queue q ↔ update place t p u = .on q := by
  by_cases hfrom : place t = .on q
  · rw [hleave q hfrom]
    have hto : p ≠ .on q := fun hp => hne (hfrom.trans hp.symm)
    refine ⟨(h.nodup q).erase t, fun u => ?_⟩
    rw [(h.nodup q).mem_erase_iff]
    by_cases hu : u = t
    · subst hu
      simp [hto]
    · simp [hu, h.mem q u]
  · have hout : t ∉ k.queue q := fun hmem => hfrom ((h.mem q t).mp hmem)
    by_cases hto : p = .on q
    · rw [hjoin q hto]
      refine ⟨List.nodup_append.mpr ⟨h.nodup q, by simp, ?_⟩, fun u => ?_⟩
      · rintro u hu v hv rfl
        exact hout (List.mem_singleton.mp hv ▸ hu)
      · rw [List.mem_append, List.mem_singleton]
        by_cases hu : u = t
        · subst hu
          simp [hto]
        · simp [hu, h.mem q u]
    · rw [hsame q hfrom hto]
      refine ⟨h.nodup q, fun u => ?_⟩
      by_cases hu : u = t
      · subst hu
        simp [hto, hout]
      · simp [hu, h.mem q u]

/-- **A thread moves to another place.** -/
theorem Placed.move (hstatus : k'.status = update k.status t p.status) (hallowed : p.Allowed B t)
    (hcreated : ∀ u, update place t p u = .created ↔ ∃ c, k'.creating c = some u)
    (hcreator : ∀ c c' u, k'.creating c = some u → k'.creating c' = some u → c = c') :
    k'.Placed B (update place t p) where
  status u := by
    rw [hstatus]
    by_cases hu : u = t
    · rw [hu, update_self, update_self]
    · rw [update_of_ne hu, update_of_ne hu, h.status u]
  mem q := (h.queue_move hne hsame hleave hjoin q).2
  nodup q := (h.queue_move hne hsame hleave hjoin q).1
  allowed u := by
    by_cases hu : u = t
    · rwa [hu, update_self]
    · rw [update_of_ne hu]
      exact h.allowed u
  created := hcreated
  creator := hcreator

end

/-- Nobody's construction begins or ends. -/
theorem Placed.created_update (hfrom : place t ≠ .created) (hto : p ≠ .created) (u : T) :
    update place t p u = .created ↔ ∃ c, k.creating c = some u := by
  rw [← h.created u]
  by_cases hu : u = t
  · rw [hu, update_self]
    simp [hfrom, hto]
  · rw [update_of_ne hu]

/-- `c` begins to construct `t`. -/
theorem Placed.begin_create {c : T} (hc : k.creating c = none) (ht : ∀ c', k.creating c' ≠ some t) :
    (∀ u, update place t .created u = .created ↔
      ∃ c', update k.creating c (some t) c' = some u) ∧
    ∀ c₁ c₂ u, update k.creating c (some t) c₁ = some u →
      update k.creating c (some t) c₂ = some u → c₁ = c₂ := by
  refine ⟨fun u => ?_, fun c₁ c₂ u => ?_⟩
  · by_cases hu : u = t
    · subst hu
      simp only [update_self, true_iff]
      exact ⟨c, update_self ..⟩
    · rw [update_of_ne hu, h.created u]
      refine exists_congr fun c' => ?_
      by_cases hc' : c' = c
      · subst hc'
        simp [hc, Ne.symm hu]
      · rw [update_of_ne hc']
  · by_cases h₁ : c₁ = c <;> by_cases h₂ : c₂ = c
    · intros
      rw [h₁, h₂]
    · rw [h₁, update_self, update_of_ne h₂]
      rintro ⟨⟩ hcreating
      exact absurd hcreating (ht c₂)
    · rw [h₂, update_self, update_of_ne h₁]
      rintro hcreating ⟨⟩
      exact absurd hcreating (ht c₁)
    · rw [update_of_ne h₁, update_of_ne h₂]
      exact h.creator c₁ c₂ u

/-- `c` has constructed `t`, which goes to another place. -/
theorem Placed.end_create {c : T} (hc : k.creating c = some t) (hp : p ≠ .created) :
    (∀ u, update place t p u = .created ↔ ∃ c', update k.creating c none c' = some u) ∧
    ∀ c₁ c₂ u, update k.creating c none c₁ = some u → update k.creating c none c₂ = some u →
      c₁ = c₂ := by
  refine ⟨fun u => ?_, fun c₁ c₂ u => ?_⟩
  · by_cases hu : u = t
    · subst hu
      simp only [update_self, hp, false_iff, not_exists]
      intro c'
      by_cases hc' : c' = c
      · simp [hc']
      · rw [update_of_ne hc']
        exact fun hcreating => hc' (h.creator c' c u hcreating hc)
    · rw [update_of_ne hu, h.created u]
      refine exists_congr fun c' => ?_
      by_cases hc' : c' = c
      · subst hc'
        simp [hc, Ne.symm hu]
      · rw [update_of_ne hc']
  · by_cases h₁ : c₁ = c
    · simp [h₁]
    · by_cases h₂ : c₂ = c
      · simp [h₂]
      · rw [update_of_ne h₁, update_of_ne h₂]
        exact h.creator c₁ c₂ u

end

/-- The running thread stays the one it is. -/
theorem Inv.running_update (h : k.Inv B place) (hfrom : place t ≠ .off .running)
    (hto : p ≠ .off .running) (u : T) :
    update place t p u = .off .running ↔ u = k.runningThread := by
  rw [← h.running u]
  by_cases hu : u = t
  · rw [hu, update_self]
    simp [hfrom, hto]
  · rw [update_of_ne hu]

/-- **A blocked thread becomes ready**, once it has been taken from its list. -/
theorem Placed.wake (h : k.Placed B place) {q : ThreadQueue S} (hq : q.status = .blocked)
    (ht : place t = .on q) (hstatus : k'.status = k.status) (hfreed : k'.freed = k.freed)
    (hcreating : k'.creating = k.creating) (hleave : k'.queue q = (k.queue q).erase t)
    (hsame : ∀ q', q' ≠ q → k'.queue q' = k.queue q') :
    k'.threadUnblock t = some (k'.makeReady t) ∧
      (k'.makeReady t).Placed B (update place t (.on .ready)) := by
  have hready : q ≠ .ready := by
    rintro rfl
    simp [ThreadQueue.status] at hq
  have hblocked : k'.status t = some .blocked := by
    rw [hstatus, h.status t, ht]
    simp [Place.status, hq]
  have hthread : k'.IsThread t := by
    have hk := h.isThread (t := t) (by simp [ht]) (by
      rw [ht]
      rintro ⟨⟩
      simp [ThreadQueue.status] at hq)
    exact ⟨by rw [hstatus]; exact hk.1, by rw [hfreed]; exact hk.2⟩
  refine ⟨threadUnblock_eq hthread hblocked, ?_⟩
  refine h.move (by simp [ht, hready]) (fun q' hfrom hto => ?_) (fun q' hfrom => ?_)
    (fun q' hto => ?_) ?_ ?_ ?_ ?_
  · have hne : q' ≠ q := by
      rintro rfl
      exact hfrom ht
    rw [← hsame q' hne]
    cases q' with
    | ready => exact absurd rfl hto
    | waiters s | sleep | blocked | freed => rfl
  · obtain rfl : q = q' := by simpa [ht] using hfrom
    rw [← hleave]
    cases q with
    | ready => exact absurd rfl hready
    | waiters s | sleep | blocked | freed => rfl
  · obtain rfl : ThreadQueue.ready = q' := by simpa using hto
    rw [← hsame .ready hready.symm]
    rfl
  · show update k'.status t _ = _
    rw [hstatus]
    rfl
  · have hallowed := h.allowed t
    rw [ht] at hallowed
    exact hallowed.ne_idle
  · intro u
    show _ ↔ ∃ c, k'.creating c = some u
    rw [hcreating]
    exact h.created_update (by simp [ht]) (by simp) u
  · show ∀ c c' u, k'.creating c = some u → k'.creating c' = some u → c = c'
    rw [hcreating]
    exact h.creator

end Moves

/-! ## Switching threads -/

section Switching
variable {B : Boot T} {k : Kernel T S} {place : T → Place S}

/-- The thread `schedule` switches to. -/
def nextThread (B : Boot T) (k : Kernel T S) : T :=
  k.readyList.headD B.idle

theorem nextThreadToRun_eq :
    k.nextThreadToRun B = (k.nextThread B, { k with readyList := k.readyList.tail }) := by
  obtain ⟨_, _, readyList⟩ := k
  cases readyList with
  | nil => rfl
  | cons t rest => rfl

/-- The next thread is the first ready one, or the idle thread. -/
theorem Placed.next (h : k.Placed B place) :
    k.readyList = [] ∧ k.nextThread B = B.idle ∨
      ∃ rest, k.readyList = k.nextThread B :: rest ∧ place (k.nextThread B) = .on .ready := by
  unfold nextThread
  cases hlist : k.readyList with
  | nil => exact Or.inl ⟨rfl, rfl⟩
  | cons t rest =>
    refine Or.inr ⟨rest, rfl, ?_⟩
    apply (h.mem .ready t).mp
    show t ∈ k.readyList
    simp [hlist]

variable [DecidableEq T]

/-- The kernel after the switch. -/
def switched (B : Boot T) (k : Kernel T S) : Kernel T S :=
  { k.setStatus (k.nextThread B) .running with
    runningThread := k.nextThread B
    readyList := k.readyList.tail
    threadTicks := 0 }

/-- The page of a dying thread is freed. -/
def reaped (B : Boot T) (k : Kernel T S) : Kernel T S :=
  if k.status k.runningThread = some .dying ∧ k.runningThread ≠ B.initial then
    { k with freed := k.freed ++ [k.runningThread] }
  else
    k

/-- **`schedule`**, when its assertions hold. -/
theorem schedule_eq (hcur : k.status k.runningThread ≠ some .running)
    (hnext : k.IsThread (k.nextThread B))
    (hdying : k.status k.runningThread = some .dying → k.runningThread ≠ k.nextThread B) :
    k.schedule B = some ((k.reaped B).switched B) := by
  have hthread : IsThread { k with readyList := k.readyList.tail } (k.nextThread B) := hnext
  simp only [schedule, nextThreadToRun_eq, assert_of hcur, assert_of hthread, some_bind]
  by_cases hsame : k.runningThread = k.nextThread B
  · -- the same thread goes on; it is not dying
    have hreaped : k.reaped B = k := if_neg fun h => hdying h.1 hsame
    rw [if_pos hsame, hreaped]
    simp [threadScheduleTail, switched, setStatus, hsame]
  · rw [if_neg hsame]
    have hstatus : update k.status (k.nextThread B) (some ThreadStatus.running) k.runningThread =
        k.status k.runningThread := update_of_ne hsame _ _
    simp only [threadScheduleTail, setStatus, hstatus]
    by_cases hreap : k.status k.runningThread = some .dying ∧ k.runningThread ≠ B.initial
    · rw [if_pos hreap, reaped, if_pos hreap, assert_of hsame]
      rfl
    · rw [if_neg hreap, reaped, if_neg hreap]
      rfl

/-- **The next thread is switched to**, when no thread is running. -/
theorem Placed.switched (h : k.Placed B place) (hnone : ∀ t, place t ≠ .off .running) :
    (k.switched B).Inv B (update place (k.nextThread B) (.off .running)) := by
  have hplaced : (k.switched B).Placed B (update place (k.nextThread B) (.off .running)) := by
    refine h.move (hnone _) (fun q hfrom _ => ?_) (fun q hfrom => ?_) (fun q hto => ?_) rfl trivial
      (h.created_update ?_ (by simp)) h.creator
    · rcases h.next with ⟨hempty, -⟩ | ⟨rest, -, hready⟩
      · cases q with
        | ready => simp [queue, Kernel.switched, hempty]
        | waiters s | sleep | blocked | freed => rfl
      · cases q with
        | ready => exact absurd hready hfrom
        | waiters s | sleep | blocked | freed => rfl
    · rcases h.next with ⟨-, hidle⟩ | ⟨rest, hlist, hready⟩
      · obtain ⟨st, hoff, -⟩ := h.idle_off
        rw [hidle, hoff] at hfrom
        cases hfrom
      · rw [hready] at hfrom
        cases hfrom
        show k.readyList.tail = k.readyList.erase (k.nextThread B)
        rw [hlist, List.erase_cons_head]
        rfl
    · cases hto
    · rcases h.next with ⟨-, hidle⟩ | ⟨rest, -, hready⟩
      · obtain ⟨st, hoff, -⟩ := h.idle_off
        rw [hidle, hoff]
        simp
      · rw [hready]
        simp
  refine ⟨hplaced, fun t => ?_⟩
  show _ ↔ t = k.nextThread B
  by_cases ht : t = k.nextThread B
  · simp [ht]
  · rw [update_of_ne ht]
    simp [hnone t, ht]

/-- **The current thread has left**: `schedule` switches to another one. -/
theorem Placed.schedule (h : (k.reaped B).Placed B place) (hnone : ∀ t, place t ≠ .off .running) :
    k.schedule B = some ((k.reaped B).switched B) := by
  have hstatus : (k.reaped B).status = k.status := by
    unfold reaped
    split <;> rfl
  have hready : (k.reaped B).readyList = k.readyList := by
    unfold reaped
    split <;> rfl
  have hnext : (k.reaped B).nextThread B = k.nextThread B := by
    unfold nextThread
    rw [hready]
  have hfreed : ∀ t, t ∈ k.freed → t ∈ (k.reaped B).freed := by
    intro t ht
    unfold reaped
    split
    · exact List.mem_append_left _ ht
    · exact ht
  -- the next thread's place is on `ready_list`, or that of the idle thread
  have hplace : place (k.nextThread B) = .on .ready ∨
      ∃ status, place (k.nextThread B) = .off status ∧ status ≠ .dying := by
    rw [← hnext]
    rcases h.next with ⟨-, hidle⟩ | ⟨rest, -, hplace⟩
    · rw [hidle]
      exact Or.inr h.idle_off
    · exact Or.inl hplace
  apply schedule_eq
  · rw [← hstatus, h.status, Ne, Place.status_eq_running]
    exact hnone _
  · have hthread : (k.reaped B).IsThread (k.nextThread B) := by
      rcases hplace with hplace | ⟨status, hplace, -⟩ <;>
        exact h.isThread (by simp [hplace]) (by simp [hplace])
    exact ⟨hstatus ▸ hthread.1, fun hmem => hthread.2 (hfreed _ hmem)⟩
  · intro hdying hsame
    rw [hsame, ← hstatus, h.status] at hdying
    rcases hplace with hplace | ⟨status, hplace, hne⟩
    · rw [hplace] at hdying
      simp [Place.status, ThreadQueue.status] at hdying
    · rw [hplace] at hdying
      exact hne (Option.some.inj hdying)

end Switching

/-! ## What the places say about the lists -/

section Places
variable {B : Boot T} {k : Kernel T S} {place : T → Place S} {t : T}

section
variable (h : k.Placed B place)
include h

theorem Placed.count_queue [DecidableEq T] [DecidableEq S] (q : ThreadQueue S) (t : T) :
    (k.queue q).count t = if place t = .on q then 1 else 0 := by
  split
  · next ht => exact List.count_eq_one_of_mem (h.nodup q) ((h.mem q t).mpr ht)
  · next ht => exact List.count_eq_zero.mpr fun hmem => ht ((h.mem q t).mp hmem)

theorem Placed.ready_iff (ht : t ≠ B.idle) :
    k.status t = some .ready ↔ place t = .on .ready := by
  have hallowed := h.allowed t
  rw [h.status t]
  cases hp : place t with
  | unused | created => simp [Place.status]
  | on q => cases q <;> simp [Place.status, ThreadQueue.status]
  | off st =>
    simp only [Place.status, Option.some.injEq, reduceCtorEq, iff_false]
    rintro rfl
    rw [hp] at hallowed
    exact ht hallowed

theorem Placed.blocked (ht : t ≠ B.idle) (hstatus : k.status t = some .blocked)
    (hcreated : ∀ c, k.creating c ≠ some t) :
    ∃ q, q.status = .blocked ∧ place t = .on q := by
  have hallowed := h.allowed t
  rw [h.status t] at hstatus
  cases hp : place t with
  | unused => simp [hp, Place.status] at hstatus
  | created =>
    obtain ⟨c, hc⟩ := (h.created t).mp hp
    exact absurd hc (hcreated c)
  | on q =>
    rw [hp] at hstatus
    exact ⟨q, Option.some.inj hstatus, rfl⟩
  | off st =>
    obtain rfl : st = .blocked := by simpa [hp, Place.status] using hstatus
    rw [hp] at hallowed
    exact absurd hallowed ht

theorem Placed.dying_iff :
    k.status t = some .dying ↔ place t = .on .freed ∨ place t = .off .dying := by
  rw [h.status t]
  cases place t with
  | unused | created => simp [Place.status]
  | on q => cases q <;> simp [Place.status, ThreadQueue.status]
  | off st => simp [Place.status]

/-- Of the dying threads the initial one is not freed, and only it. -/
theorem Placed.freed_iff (hdying : k.status t = some .dying) :
    place t = .on .freed ↔ t ≠ B.initial := by
  have hallowed := h.allowed t
  rcases h.dying_iff.mp hdying with hp | hp
  · rw [hp] at hallowed
    simp [hp, hallowed.2]
  · rw [hp] at hallowed ⊢
    have hinitial : t = B.initial := hallowed
    simp [hinitial]

end

end Places

end Kernel
end Pintos
