import Mathlib.Logic.Function.Basic
import Pintos.RingBuffer
import Pintos.Semaphore

/-!
# Interrupt queues

`devices/intq.c`.  A circular buffer of bytes between threads and interrupt handlers.
All of it runs with interrupts off.  A thread that finds the queue empty, or full,
acquires the queue's lock, puts itself into `not_empty`, or `not_full`, and blocks; the
next `intq_putc`, or `intq_getc`, unblocks it.

A thread keeps interrupts off until it sleeps, and may sleep in two places: in
`lock_acquire`, and in `wait` itself.  So at any time at most one thread is in the middle
of a call without being asleep (`current`), and interrupt handlers and other threads run
only when there is none.

The bytes go through the queue **first in, first out** (`first_in_first_out`).

A thread that slept in `lock_acquire` does not test the queue again before it enters
`wait`, which asserts what the test had found.  With a second thread waiting, two bytes
can arrive in between, and the assertion fails (`stale_wait_panics`).  As long as the
threads that find the queue empty or full find its lock free, no assertion does
(`waiters_find_condition`); and in no case is a waiting thread overwritten.
-/

namespace Pintos
open List
open TransitionSystem (after orSelf)
open Function (update update_of_ne update_self)

/-- `INTQ_BUFSIZE`. -/
def intqBufsize : Nat := 64

/-- The members of `struct intq` that hold a waiting thread. -/
inductive IntqSlot where
  | notFull
  | notEmpty
  deriving DecidableEq

/-- `struct intq`, with the lock's `holder` and its semaphore in use. -/
structure Intq (T : Type) where
  holder : Option T
  semaphore : Semaphore.Usage T
  waiter : IntqSlot → Option T
  buf : List UInt8
  head : Nat
  tail : Nat
  buf_length : buf.length = intqBufsize

/-- `intq_getc` and `intq_putc`. -/
inductive IntqOp where
  | getc
  | putc (byte : UInt8)
  deriving DecidableEq

/-- The slot an operation waits in. -/
def IntqOp.slot : IntqOp → IntqSlot
  | .getc => .notEmpty
  | .putc _ => .notFull

/-- Where a thread is in its use of the queue. -/
inductive IntqPc where
  | idle
  /-- About to test the condition of the loop. -/
  | testing (op : IntqOp)
  /-- The condition held; about to call `lock_acquire`. -/
  | locking (op : IntqOp)
  /-- Asleep in `lock_acquire`, or unblocked from there. -/
  | queued (op : IntqOp)
  /-- The lock is acquired; about to enter `wait`. -/
  | entering (op : IntqOp)
  /-- Blocked in `wait`. -/
  | waiting (op : IntqOp)
  /-- Unblocked from `wait`. -/
  | unblocked (op : IntqOp)
  deriving DecidableEq

namespace IntqPc

/-- The thread has acquired the lock and not released it. -/
def ownsLock : IntqPc → Bool
  | .entering _ | .waiting _ | .unblocked _ => true
  | .idle | .testing _ | .locking _ | .queued _ => false

/-- The thread is running, with interrupts off. -/
def active : IntqPc → Bool
  | .testing _ | .locking _ | .entering _ => true
  | .idle | .queued _ | .waiting _ | .unblocked _ => false

/-- The thread's operation, if it is about to test, about to enter `wait` and so on. -/
def isTesting : IntqPc → Bool
  | .testing _ => true
  | _ => false

def isLocking : IntqPc → Bool
  | .locking _ => true
  | _ => false

def isQueued : IntqPc → Bool
  | .queued _ => true
  | _ => false

def isEntering : IntqPc → Bool
  | .entering _ => true
  | _ => false

def isUnblocked : IntqPc → Bool
  | .unblocked _ => true
  | _ => false

end IntqPc

/-- **Threads and interrupt handlers using one queue.**  `current` is the thread that is
running with interrupts off.  `accepted` and `returned` are the bytes of the calls
completed, in their order; the code has no counterpart of these two. -/
structure IntqSystem (T : Type) where
  queue : Intq T
  pc : T → IntqPc
  current : Option T
  accepted : List UInt8
  returned : List UInt8

/-- The interrupts-off steps. -/
inductive IntqEvent (T : Type) where
  | call (t : T) (op : IntqOp)
  | test (t : T)
  | acquire (t : T)
  | wait (t : T)
  /-- `t` is scheduled after it slept in `lock_acquire`. -/
  | resumeLock (t : T)
  /-- `t` is scheduled after it slept in `wait`. -/
  | resumeWait (t : T)
  /-- An interrupt handler calls `intq_getc` or `intq_putc`. -/
  | interrupt (op : IntqOp)
  deriving DecidableEq

namespace Intq
variable {T : Type}

/-- `next`. -/
def next (pos : Nat) : Nat :=
  RingBuffer.next intqBufsize pos

/-- `intq_empty`. -/
def empty (q : Intq T) : Bool :=
  q.head == q.tail

/-- `intq_full`. -/
def full (q : Intq T) : Bool :=
  next q.head == q.tail

/-- What a thread in the slot waits for to end. -/
def blocked (q : Intq T) : IntqSlot → Bool
  | .notFull => q.full
  | .notEmpty => q.empty

/-- `byte = q->buf[q->tail]; q->tail = next (q->tail)`, as far as it changes the queue. -/
def removed (q : Intq T) : Intq T :=
  { q with tail := next q.tail }

/-- `q->buf[q->head] = byte; q->head = next (q->head)`. -/
def added (q : Intq T) (byte : UInt8) : Intq T :=
  { q with
    buf := q.buf.set q.head byte
    head := next q.head
    buf_length := by rw [length_set]; exact q.buf_length }

/-- `*waiter = w`. -/
def setWaiter (q : Intq T) (slot : IntqSlot) (w : Option T) : Intq T :=
  { q with waiter := update q.waiter slot w }

/-- The lock's semaphore and holder change. -/
def setLock (q : Intq T) (semaphore : Semaphore.Usage T) (holder : Option T) : Intq T :=
  { q with semaphore := semaphore, holder := holder }

/-- The bytes in the queue, the oldest first. -/
def contents (q : Intq T) : List UInt8 :=
  RingBuffer.contents intqBufsize (fun i => q.buf.getD i 0) q.head q.tail

end Intq

namespace IntqSystem
variable {T : Type}

/-- `intq_init`, before any use of the queue; `buf` is not initialised. -/
def start (buf : List UInt8) (hbuf : buf.length = intqBufsize) : IntqSystem T where
  queue :=
    { holder := none
      semaphore := .start 1
      waiter := fun _ => none
      buf := buf
      head := 0
      tail := 0
      buf_length := hbuf }
  pc _ := .idle
  current := none
  accepted := []
  returned := []

/-- Interrupt handlers call `intq_getc` only when the queue is not empty and `intq_putc`
only when it is not full. -/
def Enabled (s : IntqSystem T) : IntqEvent T → Prop
  | .call t _ => s.current = none ∧ s.pc t = .idle
  | .test t => s.current = some t ∧ (s.pc t).isTesting
  | .acquire t => s.current = some t ∧ (s.pc t).isLocking
  | .wait t => s.current = some t ∧ (s.pc t).isEntering
  | .resumeLock t => s.current = none ∧ (s.pc t).isQueued ∧ t ∈ s.queue.semaphore.woken
  | .resumeWait t => s.current = none ∧ (s.pc t).isUnblocked
  | .interrupt op => s.current = none ∧ s.queue.blocked op.slot = false

variable [DecidableEq T]

instance (s : IntqSystem T) : ∀ e, Decidable (s.Enabled e)
  | .call _ _ | .test _ | .acquire _ | .wait _ | .resumeWait _ | .interrupt _ =>
    inferInstanceAs (Decidable (_ ∧ _))
  | .resumeLock _ => inferInstanceAs (Decidable (_ ∧ _ ∧ _))

/-- `thread_unblock`, of a thread in `wait`. -/
def unblock (s : IntqSystem T) (t : T) : Option (IntqSystem T) :=
  match s.pc t with
  | .waiting op => some { s with pc := update s.pc t (.unblocked op) }
  | _ => none

/-- `signal`. -/
def signal (s : IntqSystem T) (slot : IntqSlot) : Option (IntqSystem T) := do
  assert (s.queue.blocked slot = false)
  match s.queue.waiter slot with
  | none => some s
  | some t =>
    let s ← s.unblock t
    some { s with queue := s.queue.setWaiter slot none }

/-- `wait`, called by `t`. -/
def wait (s : IntqSystem T) (t : T) (op : IntqOp) : Option (IntqSystem T) := do
  assert (s.queue.blocked op.slot = true)
  some { s with
    queue := s.queue.setWaiter op.slot (some t)
    pc := update s.pc t (.waiting op)
    current := none }

/-- What `intq_getc` and `intq_putc` do behind their loops. -/
def perform (s : IntqSystem T) : IntqOp → Option (IntqSystem T)
  | .getc => do
    let byte ← s.queue.buf[s.queue.tail]?
    let s := { s with queue := s.queue.removed, returned := s.returned ++ [byte] }
    s.signal .notFull
  | .putc byte => do
    assert (s.queue.head < s.queue.buf.length)
    let s := { s with queue := s.queue.added byte, accepted := s.accepted ++ [byte] }
    s.signal .notEmpty

/-- A test of the loop of `sema_down` in `lock_acquire`: `t` gets the lock, or sleeps. -/
def acquired (s : IntqSystem T) (t : T) (op : IntqOp) (e : Semaphore.Event T) : IntqSystem T :=
  let semaphore := s.queue.semaphore.apply e
  if (s.queue.semaphore.sema.down t).2 then
    { s with
      queue := s.queue.setLock semaphore (some t)
      pc := update s.pc t (.entering op)
      current := some t }
  else
    { s with
      queue := s.queue.setLock semaphore s.queue.holder
      pc := update s.pc t (.queued op)
      current := none }

def apply (s : IntqSystem T) : IntqEvent T → Option (IntqSystem T)
  | .call t op => some { s with pc := update s.pc t (.testing op), current := some t }
  | .test t =>
    match s.pc t with
    | .testing op =>
      if s.queue.blocked op.slot then
        some { s with pc := update s.pc t (.locking op) }
      else do
        let s ← s.perform op
        some { s with pc := update s.pc t .idle, current := none }
    | _ => none
  | .acquire t =>
    match s.pc t with
    | .locking op => do
      assert (s.queue.holder ≠ some t)
      some (s.acquired t op (.down t))
    | _ => none
  | .wait t =>
    match s.pc t with
    | .entering op => s.wait t op
    | _ => none
  | .resumeLock t =>
    match s.pc t with
    | .queued op => some (s.acquired t op (.retry t))
    | _ => none
  | .resumeWait t =>
    match s.pc t with
    | .unblocked op => do
      assert (s.queue.holder = some t)
      some { s with
        queue := s.queue.setLock (s.queue.semaphore.apply .up) none
        pc := update s.pc t (.testing op)
        current := some t }
    | _ => none
  | .interrupt op => s.perform op

/-- Any threads and interrupt handlers using one queue. -/
def system : TransitionSystem (IntqSystem T) (IntqEvent T) :=
  .checked (fun s => ∃ buf hbuf, s = start buf hbuf) Enabled apply

/-! ## What holds always -/

/-- **The lock and the slots**: the lock's semaphore is 1 and nobody has the lock, or it
is 0 and `owner` does, as its holder; who is in a slot is blocked in `wait`; and whoever
runs is `current`. -/
structure Control (s : IntqSystem T) : Prop where
  owned : ∃ owner : Option T, s.queue.semaphore.sema.value + owner.toList.length = 1 ∧
    s.queue.holder = owner ∧ ∀ t, (s.pc t).ownsLock = true ↔ owner = some t
  waiter : ∀ slot t, s.queue.waiter slot = some t → ∃ op, s.pc t = .waiting op ∧ op.slot = slot
  active : ∀ t, (s.pc t).active = true → s.current = some t

/-- **The bytes**: what was accepted and not returned is in the queue. -/
structure Fifo (s : IntqSystem T) : Prop where
  head_lt : s.queue.head < intqBufsize
  tail_lt : s.queue.tail < intqBufsize
  bytes : s.accepted = s.returned ++ s.queue.contents

/-- **The invariant of an interrupt queue.** -/
structure Inv (s : IntqSystem T) : Prop where
  control : s.Control
  fifo : s.Fifo

section
omit [DecidableEq T]

theorem control_start {buf : List UInt8} (hbuf : buf.length = intqBufsize) :
    (start buf hbuf : IntqSystem T).Control where
  owned := ⟨none, rfl, rfl, fun t => by simp [start, IntqPc.ownsLock]⟩
  waiter slot t ht := by simp [start] at ht
  active t ht := by simp [start, IntqPc.active] at ht

theorem fifo_start {buf : List UInt8} (hbuf : buf.length = intqBufsize) :
    (start buf hbuf : IntqSystem T).Fifo where
  head_lt := (by decide : 0 < intqBufsize)
  tail_lt := (by decide : 0 < intqBufsize)
  bytes := by
    show [] = [] ++ RingBuffer.contents intqBufsize _ 0 0
    rw [RingBuffer.contents_empty _ (by decide), append_nil]

end

variable {s s' : IntqSystem T} {t u : T} {op : IntqOp} {slot : IntqSlot}

section
omit [DecidableEq T]

/-- While the lock's owner is not waiting, the slots are empty. -/
theorem Control.waiter_none (h : s.Control) (ht : (s.pc t).ownsLock = true)
    (hpc : ∀ op, s.pc t ≠ .waiting op) (slot : IntqSlot) : s.queue.waiter slot = none := by
  cases hu : s.queue.waiter slot with
  | none => rfl
  | some u =>
    obtain ⟨op, hop, -⟩ := h.waiter slot u hu
    obtain ⟨owner, -, -, howns⟩ := h.owned
    have hown : (s.pc u).ownsLock = true := by rw [hop]; rfl
    have heq := (howns u).mp hown
    rw [(howns t).mp ht] at heq
    cases heq
    exact absurd hop (hpc op)

/-- Nobody else runs while `t` does, or while nobody does. -/
theorem Control.others (h : s.Control) (hcur : s.current = none ∨ s.current = some t)
    (hu : u ≠ t) (hactive : (s.pc u).active = true) : s'.current = some u := by
  have hcur' := h.active u hactive
  rcases hcur with hcur | hcur
  · rw [hcur] at hcur'
    exact absurd hcur' (by simp)
  · rw [hcur] at hcur'
    exact absurd (Option.some.inj hcur').symm hu

end

/-- **One thread changes its place**: the others stay where they are, and the lock goes
with the step. -/
theorem Control.move {p : IntqPc} (owner : Option T) (h : s.Control)
    (hpc : s'.pc = update s.pc t p)
    (hvalue : s'.queue.semaphore.sema.value + owner.toList.length = 1)
    (hholder : s'.queue.holder = owner) (hown : p.ownsLock = true ↔ owner = some t)
    (howns : ∀ u, u ≠ t → ((s.pc u).ownsLock = true ↔ owner = some u))
    (hwaiter : ∀ slot u, s'.queue.waiter slot = some u →
      u = t ∧ (∃ op, p = .waiting op ∧ op.slot = slot) ∨ u ≠ t ∧ s.queue.waiter slot = some u)
    (hactive : p.active = true → s'.current = some t)
    (hothers : ∀ u, u ≠ t → (s.pc u).active = true → s'.current = some u) : s'.Control where
  owned := by
    refine ⟨owner, hvalue, hholder, fun u => ?_⟩
    rw [hpc]
    by_cases hu : u = t
    · subst hu
      simpa using hown
    · rw [update_of_ne hu]
      exact howns u hu
  waiter slot u hu := by
    rw [hpc]
    rcases hwaiter slot u hu with ⟨rfl, hop⟩ | ⟨hne, hold⟩
    · simpa using hop
    · rw [update_of_ne hne]
      exact h.waiter slot u hold
  active u hu := by
    rw [hpc] at hu
    by_cases hut : u = t
    · subst hut
      exact hactive (by simpa using hu)
    · rw [update_of_ne hut] at hu
      exact hothers u hut hu

omit [DecidableEq T] in
/-- Who does not own the lock is in no slot. -/
theorem Control.waiter_ne (h : s.Control) (ht : (s.pc t).ownsLock = false)
    (hu : s.queue.waiter slot = some u) : u ≠ t := by
  rintro rfl
  obtain ⟨op, hop, -⟩ := h.waiter slot u hu
  rw [hop] at ht
  exact absurd ht (by simp [IntqPc.ownsLock])

/-- A step of a thread without the lock, which leaves the lock and the slots alone. -/
theorem Control.walk {p : IntqPc} (h : s.Control) (hcur : s.current = none ∨ s.current = some t)
    (hpc : s'.pc = update s.pc t p)
    (hvalue : s'.queue.semaphore.sema.value = s.queue.semaphore.sema.value)
    (hholder : s'.queue.holder = s.queue.holder) (hwaiter : s'.queue.waiter = s.queue.waiter)
    (hold : (s.pc t).ownsLock = false) (hnew : p.ownsLock = false)
    (hactive : p.active = true → s'.current = some t) : s'.Control := by
  obtain ⟨owner, howned, hheld, howns⟩ := h.owned
  refine h.move owner hpc (hvalue ▸ howned) (hholder.trans hheld) ?_ (fun u _ => howns u) ?_ hactive
    fun u hu => h.others hcur hu
  · rw [← howns t, hold, hnew]
  · intro slot u hu
    rw [hwaiter] at hu
    exact .inr ⟨h.waiter_ne hold hu, hu⟩

/-- Nothing happens to the threads but that waiting ones are unblocked. -/
def OnlyUnblocks (pc pc' : T → IntqPc) : Prop :=
  ∀ u, pc' u = pc u ∨ ∃ op, pc u = .waiting op ∧ pc' u = .unblocked op

/-- **`signal` unblocks who waits in the slot.** -/
theorem Control.signal (h : s.Control) (slot : IntqSlot)
    (hblocked : s.queue.blocked slot = false) :
    ∃ pc w, s.signal slot = some { s with pc := pc, queue := s.queue.setWaiter slot w } ∧
      IntqSystem.Control { s with pc := pc, queue := s.queue.setWaiter slot w } ∧
      OnlyUnblocks s.pc pc := by
  cases hslot : s.queue.waiter slot with
  | none =>
    have hsame : s.queue.setWaiter slot none = s.queue := by
      rw [Intq.setWaiter, ← hslot, Function.update_eq_self]
    refine ⟨s.pc, none, ?_, ?_, fun _ => .inl rfl⟩
    · rw [IntqSystem.signal, assert_of hblocked, hsame]
      simp only [some_bind, hslot]
    · rw [hsame]
      exact h
  | some t =>
    obtain ⟨op, hop, rfl⟩ := h.waiter slot t hslot
    obtain ⟨owner, howned, hheld, howns⟩ := h.owned
    have ht : owner = some t := (howns t).mp (by rw [hop]; rfl)
    refine ⟨update s.pc t (.unblocked op), none, ?_, ?_, ?_⟩
    · rw [IntqSystem.signal, assert_of hblocked]
      simp only [some_bind, hslot, unblock, hop]
    · refine h.move owner rfl howned hheld ⟨fun _ => ht, fun _ => rfl⟩ (fun u _ => howns u) ?_
        (fun hactive => absurd hactive (by simp [IntqPc.active]))
        fun u _ hactive => h.active u hactive
      intro slot' u hu
      change update s.queue.waiter op.slot none slot' = some u at hu
      by_cases hslot' : slot' = op.slot
      · simp [hslot'] at hu
      · rw [update_of_ne hslot'] at hu
        -- who waits in one slot does not wait in the other
        refine .inr ⟨?_, hu⟩
        rintro rfl
        obtain ⟨op', hop', rfl⟩ := h.waiter slot' u hu
        rw [hop] at hop'
        cases hop'
        exact hslot' rfl
    · intro u
      by_cases hu : u = t
      · subst hu
        exact .inr ⟨op, hop, update_self ..⟩
      · exact .inl (update_of_ne hu _ _)

/-! ## Reading and writing bytes -/

section
omit [DecidableEq T]

/-- **A byte is read**: the queue is not full afterwards. -/
theorem Fifo.take (h : s.Fifo) (hempty : s.queue.empty = false) :
    ∃ byte, s.queue.buf[s.queue.tail]? = some byte ∧ s.queue.removed.full = false ∧
      IntqSystem.Fifo { s with queue := s.queue.removed, returned := s.returned ++ [byte] } := by
  have hne : s.queue.head ≠ s.queue.tail := by simpa [Intq.empty] using hempty
  have hlt : s.queue.tail < s.queue.buf.length := by rw [s.queue.buf_length]; exact h.tail_lt
  have hpop := RingBuffer.contents_pop (fun i => s.queue.buf.getD i 0) h.head_lt h.tail_lt hne
  refine ⟨s.queue.buf.getD s.queue.tail 0, ?_, ?_, h.head_lt, RingBuffer.next_lt h.tail_lt, ?_⟩
  · rw [getD_eq_getElem?_getD, getElem?_eq_getElem hlt, Option.getD_some]
  · have hnext : Intq.next s.queue.head ≠ Intq.next s.queue.tail := by
      have h1 := RingBuffer.next_eq h.head_lt
      have h2 := RingBuffer.next_eq h.tail_lt
      unfold Intq.next
      split at h1 <;> split at h2 <;> omega
    simpa [Intq.full, Intq.removed] using hnext
  · show s.accepted = s.returned ++ [_] ++ s.queue.removed.contents
    rw [h.bytes, Intq.contents, hpop, append_assoc]
    rfl

/-- **A byte is written**: the queue is not empty afterwards. -/
theorem Fifo.put (h : s.Fifo) (hfull : s.queue.full = false) (byte : UInt8) :
    s.queue.head < s.queue.buf.length ∧ (s.queue.added byte).empty = false ∧
      IntqSystem.Fifo { s with
        queue := s.queue.added byte
        accepted := s.accepted ++ [byte] } := by
  have hne : Intq.next s.queue.head ≠ s.queue.tail := by simpa [Intq.full] using hfull
  have hlt : s.queue.head < s.queue.buf.length := by rw [s.queue.buf_length]; exact h.head_lt
  have hpush : (s.queue.added byte).contents = s.queue.contents ++ [byte] := by
    refine RingBuffer.contents_push h.head_lt h.tail_lt hne ?_ fun i hi => ?_
    · simp [Intq.added, getD_eq_getElem?_getD, hlt]
    · simp [Intq.added, getD_eq_getElem?_getD, Ne.symm hi]
  refine ⟨hlt, by simpa [Intq.empty, Intq.added] using hne, RingBuffer.next_lt h.head_lt,
    h.tail_lt, ?_⟩
  show s.accepted ++ [byte] = s.returned ++ (s.queue.added byte).contents
  rw [h.bytes, hpush, append_assoc]

/-- The bytes do not depend on who waits. -/
theorem Fifo.of_bytes (h : s.Fifo) (hhead : s'.queue.head = s.queue.head)
    (htail : s'.queue.tail = s.queue.tail) (hbuf : s'.queue.buf = s.queue.buf)
    (haccepted : s'.accepted = s.accepted) (hreturned : s'.returned = s.returned) : s'.Fifo where
  head_lt := hhead ▸ h.head_lt
  tail_lt := htail ▸ h.tail_lt
  bytes := by
    rw [haccepted, hreturned, Intq.contents, hhead, htail, hbuf]
    exact h.bytes

end

/-- **The rest of `intq_getc` and `intq_putc`** behind their loops. -/
theorem perform_spec (hc : s.Control) (hf : s.Fifo) (hblocked : s.queue.blocked op.slot = false) :
    ∃ s', s.perform op = some s' ∧ s'.Control ∧ s'.Fifo ∧ s'.current = s.current ∧
      OnlyUnblocks s.pc s'.pc := by
  cases op with
  | getc =>
    obtain ⟨byte, hread, hfull, hf'⟩ := hf.take hblocked
    have hc' : IntqSystem.Control { s with
        queue := s.queue.removed
        returned := s.returned ++ [byte] } := ⟨hc.owned, hc.waiter, hc.active⟩
    obtain ⟨pc, w, hcode, hc'', hpc⟩ := hc'.signal .notFull hfull
    refine ⟨_, ?_, hc'', hf'.of_bytes rfl rfl rfl rfl rfl, rfl, hpc⟩
    simp only [perform, hread, some_bind, hcode]
  | putc byte =>
    obtain ⟨hlt, hempty, hf'⟩ := hf.put hblocked byte
    have hc' : IntqSystem.Control { s with
        queue := s.queue.added byte
        accepted := s.accepted ++ [byte] } := ⟨hc.owned, hc.waiter, hc.active⟩
    obtain ⟨pc, w, hcode, hc'', hpc⟩ := hc'.signal .notEmpty hempty
    refine ⟨_, ?_, hc'', hf'.of_bytes rfl rfl rfl rfl rfl, rfl, hpc⟩
    simp only [perform, assert_of hlt, some_bind, hcode]

/-! ## Steps -/

/-- **A test in `lock_acquire`**, the first or a later one: `t` gets the lock if it is
free, and sleeps otherwise. -/
theorem Control.acquired (h : s.Control) {e : Semaphore.Event T}
    (he : (s.queue.semaphore.apply e).sema = (s.queue.semaphore.sema.down t).1)
    (hcur : s.current = none ∨ s.current = some t) (ht : (s.pc t).ownsLock = false) :
    (s.acquired t op e).Control := by
  rcases Nat.eq_zero_or_pos s.queue.semaphore.sema.value with hzero | hpos
  · have hdown := Semaphore.down_of_zero hzero t
    rw [hdown] at he
    refine h.walk hcur (p := .queued op) ?_ ?_ ?_ ?_ ht rfl fun hactive => nomatch hactive
    all_goals simp [IntqSystem.acquired, hdown, Intq.setLock, he]
  · have hdown := Semaphore.down_of_pos hpos t
    rw [hdown] at he
    obtain ⟨owner, howned, -, howns⟩ := h.owned
    -- the semaphore is positive, so nobody had the lock
    obtain rfl : owner = none := by
      cases owner with
      | none => rfl
      | some u =>
        simp only [Option.toList_some, length_singleton] at howned
        omega
    simp only [Option.toList_none, length_nil, Nat.add_zero] at howned
    refine h.move (some t) (p := .entering op) ?_ ?_ ?_ ⟨fun _ => rfl, fun _ => rfl⟩ ?_ ?_ ?_
      fun u hu => h.others hcur hu
    · simp [IntqSystem.acquired, hdown]
    · simp [IntqSystem.acquired, hdown, Intq.setLock, he, howned]
    · simp [IntqSystem.acquired, hdown, Intq.setLock]
    · intro u hu
      rw [howns u]
      simp [Ne.symm hu]
    · intro slot u hu
      simp only [IntqSystem.acquired, hdown, Intq.setLock, if_true] at hu
      exact .inr ⟨h.waiter_ne ht hu, hu⟩
    · simp [IntqSystem.acquired, hdown]

theorem Fifo.acquired (h : s.Fifo) (t : T) (op : IntqOp) (e : Semaphore.Event T) :
    (s.acquired t op e).Fifo := by
  unfold IntqSystem.acquired
  split <;> exact h.of_bytes rfl rfl rfl rfl rfl

/-- **`wait` takes an empty slot.** -/
theorem Control.wait (h : s.Control) (ht : s.pc t = .entering op)
    (hblocked : s.queue.blocked op.slot = true) :
    ∃ s', s.wait t op = some s' ∧ s'.Control := by
  obtain ⟨owner, howned, hheld, howns⟩ := h.owned
  have hown : (s.pc t).ownsLock = true := by rw [ht]; rfl
  have hempty : ∀ slot, s.queue.waiter slot = none :=
    h.waiter_none hown fun op' hop' => by rw [ht] at hop'; cases hop'
  have hcur : s.current = some t := h.active t (by rw [ht]; rfl)
  refine ⟨_, by rw [IntqSystem.wait, assert_of hblocked]; rfl, ?_⟩
  refine h.move owner rfl howned hheld ⟨fun _ => (howns t).mp hown, fun _ => rfl⟩
    (fun u _ => howns u) ?_ (fun hactive => nomatch hactive) fun u hu => h.others (.inr hcur) hu
  intro slot u hu
  change update s.queue.waiter op.slot (some t) slot = some u at hu
  by_cases hslot : slot = op.slot
  · subst hslot
    rw [update_self] at hu
    exact .inl ⟨(Option.some.inj hu).symm, op, rfl, rfl⟩
  · rw [update_of_ne hslot, hempty] at hu
    cases hu

/-- **`lock_release` behind `wait`**: the lock is free again. -/
theorem Control.resumeWait (h : s.Control) (hcur : s.current = none) (ht : s.pc t = .unblocked op) :
    s.queue.holder = some t ∧ IntqSystem.Control { s with
      queue := s.queue.setLock (s.queue.semaphore.apply .up) none
      pc := update s.pc t (.testing op)
      current := some t } := by
  obtain ⟨owner, howned, hheld, howns⟩ := h.owned
  have hown : (s.pc t).ownsLock = true := by rw [ht]; rfl
  obtain rfl : owner = some t := (howns t).mp hown
  have hvalue : s.queue.semaphore.sema.value = 0 := by
    simpa using howned
  have hempty : ∀ slot, s.queue.waiter slot = none :=
    h.waiter_none hown fun op' hop' => by rw [ht] at hop'; cases hop'
  refine ⟨hheld, h.move none rfl ?_ rfl ⟨(fun hp => nomatch hp), (fun hp => nomatch hp)⟩ ?_ ?_
    (fun _ => rfl) fun u hu => h.others (.inl hcur) hu⟩
  · show s.queue.semaphore.sema.up.1.value + 0 = 1
    rw [Semaphore.up_value, hvalue]
    rfl
  · intro u hu
    rw [howns u]
    simp [Ne.symm hu]
  · intro slot u hu
    have hnone := hempty slot
    rw [show s.queue.waiter slot = some u from hu] at hnone
    cases hnone

variable {e : IntqEvent T}

/-- **Every step keeps the lock, the slots and the bytes**, and only the assertion in
`wait` can fail. -/
theorem step_spec (hc : s.Control) (hf : s.Fifo) (he : s.Enabled e)
    (hwait : ∀ t op, e = .wait t → s.pc t = .entering op → s.queue.blocked op.slot = true) :
    ∃ s', s.apply e = some s' ∧ s'.Control ∧ s'.Fifo := by
  cases e with
  | call t op =>
    obtain ⟨hcur, hpc⟩ := he
    refine ⟨_, rfl, hc.walk (.inl hcur) rfl rfl rfl rfl (by rw [hpc]; rfl) rfl fun _ => rfl,
      hf.of_bytes rfl rfl rfl rfl rfl⟩
  | test t =>
    obtain ⟨hcur, hpc⟩ := he
    cases hop : s.pc t with
    | testing op =>
      have hown : (s.pc t).ownsLock = false := by rw [hop]; rfl
      cases hblocked : s.queue.blocked op.slot with
      | true =>
        have hcode : s.apply (.test t) = some { s with pc := update s.pc t (.locking op) } := by
          simp only [apply, hop, hblocked, if_true]
        refine ⟨_, hcode, ?_, hf.of_bytes rfl rfl rfl rfl rfl⟩
        exact hc.walk (.inr hcur) rfl rfl rfl rfl hown rfl fun _ => hcur
      | false =>
        obtain ⟨s₁, hperform, hc₁, hf₁, hcur₁, hpc₁⟩ := perform_spec hc hf hblocked
        have hpc' : s₁.pc t = .testing op := by
          rcases hpc₁ t with heq | ⟨op', hop', -⟩
          · exact heq.trans hop
          · rw [hop] at hop'
            cases hop'
        have hcode : s.apply (.test t)
            = some { s₁ with pc := update s₁.pc t .idle, current := none } := by
          simp [apply, hop, hblocked, hperform]
        refine ⟨_, hcode, ?_, hf₁.of_bytes rfl rfl rfl rfl rfl⟩
        exact hc₁.walk (.inr (hcur₁.trans hcur)) rfl rfl rfl rfl (by rw [hpc']; rfl) rfl
          fun hactive => nomatch hactive
    | _ => rw [hop] at hpc; cases hpc
  | acquire t =>
    obtain ⟨hcur, hpc⟩ := he
    cases hop : s.pc t with
    | locking op =>
      have hown : (s.pc t).ownsLock = false := by rw [hop]; rfl
      have hholder : s.queue.holder ≠ some t := by
        obtain ⟨owner, -, hheld, howns⟩ := hc.owned
        rw [hheld, Ne, ← howns t, hown]
        exact Bool.false_ne_true
      have hcode : s.apply (.acquire t) = some (s.acquired t op (.down t)) := by
        simp only [apply, hop, assert_of hholder]
        rfl
      refine ⟨_, hcode, ?_, hf.acquired t op _⟩
      exact hc.acquired rfl (.inr hcur) hown
    | _ => rw [hop] at hpc; cases hpc
  | wait t =>
    obtain ⟨hcur, hpc⟩ := he
    cases hop : s.pc t with
    | entering op =>
      obtain ⟨s', hcode, hc'⟩ := hc.wait hop (hwait t op rfl hop)
      refine ⟨s', by simp only [apply, hop, hcode], hc', ?_⟩
      rw [IntqSystem.wait, assert_of (hwait t op rfl hop)] at hcode
      cases hcode
      exact hf.of_bytes rfl rfl rfl rfl rfl
    | _ => rw [hop] at hpc; cases hpc
  | resumeLock t =>
    obtain ⟨hcur, hpc, -⟩ := he
    cases hop : s.pc t with
    | queued op =>
      have hcode : s.apply (.resumeLock t) = some (s.acquired t op (.retry t)) := by
        simp only [apply, hop]
      refine ⟨_, hcode, ?_, hf.acquired t op _⟩
      exact hc.acquired rfl (.inl hcur) (by rw [hop]; rfl)
    | _ => rw [hop] at hpc; cases hpc
  | resumeWait t =>
    obtain ⟨hcur, hpc⟩ := he
    cases hop : s.pc t with
    | unblocked op =>
      obtain ⟨hholder, hc'⟩ := hc.resumeWait hcur hop
      exact ⟨_, by simp only [apply, hop, assert_of hholder]; rfl, hc',
        hf.of_bytes rfl rfl rfl rfl rfl⟩
    | _ => rw [hop] at hpc; cases hpc
  | interrupt op =>
    obtain ⟨s', hcode, hc', hf', -⟩ := perform_spec hc hf he.2
    exact ⟨s', hcode, hc', hf'⟩

/-! ## Runs -/

theorem blocked_of_wait (ht : s.pc t = .entering op) (h : s.apply (.wait t) = some s') :
    s.queue.blocked op.slot = true := by
  simp only [apply, ht, IntqSystem.wait] at h
  cases hblocked : s.queue.blocked op.slot with
  | true => rfl
  | false => simp [assert, hblocked] at h

theorem Inv.step (h : s.Inv) (he : s.Enabled e) (hcode : s.apply e = some s') :
    s'.Inv := by
  obtain ⟨s₁, hcode₁, hc, hf⟩ := step_spec h.control h.fifo he
    fun t op hwait ht => blocked_of_wait ht (hwait ▸ hcode)
  rw [hcode] at hcode₁
  cases hcode₁
  exact ⟨hc, hf⟩

theorem inv_reachable (h : (system (T := T)).Reachable s) : s.Inv := by
  refine TransitionSystem.Reachable.invariant ?_ ?_ h
  · rintro s ⟨buf, hbuf, rfl⟩
    exact ⟨control_start hbuf, fifo_start hbuf⟩
  · rintro s e s' hinv ⟨he, hcode⟩
    exact hinv.step he hcode

/-- **First in, first out.**  The bytes returned are the first of those accepted, and the
bytes in the queue are the rest, of which there are fewer than `INTQ_BUFSIZE`. -/
theorem first_in_first_out (h : (system (T := T)).Reachable s) :
    s.returned <+: s.accepted ∧ s.accepted = s.returned ++ s.queue.contents ∧
      s.queue.contents.length ≤ intqBufsize - 1 ∧ s.queue.head < intqBufsize ∧
      s.queue.tail < intqBufsize := by
  have hf := (inv_reachable h).fifo
  refine ⟨⟨_, hf.bytes.symm⟩, hf.bytes, ?_, hf.head_lt, hf.tail_lt⟩
  have hsize : RingBuffer.size intqBufsize s.queue.head s.queue.tail < intqBufsize :=
    RingBuffer.size_lt hf.tail_lt
  rw [Intq.contents, RingBuffer.length_contents]
  omega

/-- The first state, with zeros in the buffer. -/
def zeroed : IntqSystem T :=
  start (List.replicate intqBufsize 0) (length_replicate ..)

/-- A thread waits for a byte and gets the first of two. -/
theorem first_in_first_out_waiting : ∃ s : IntqSystem Bool, system.Reachable s ∧
    s.accepted = [7, 8] ∧ s.returned = [7] ∧ s.queue.contents = [8] := by
  let events : List (IntqEvent Bool) := [.call true .getc, .test true, .acquire true, .wait true,
    .interrupt (.putc 7), .interrupt (.putc 8), .resumeWait true, .test true]
  let state := after (orSelf apply) zeroed events
  have hrun : system.Run 8 state fun n => events.getD n (.test true) :=
    TransitionSystem.Run.of_checked_labels ⟨_, _, rfl⟩ events _ (by decide +kernel)
  have hreachable : system.Reachable (state 8) := hrun.reachable (Nat.le_refl 8)
  have haccepted : (state 8).accepted = [7, 8] := by decide +kernel
  have hreturned : (state 8).returned = [7] := by decide +kernel
  clear_value state
  obtain ⟨-, hbytes, -⟩ := first_in_first_out hreachable
  rw [haccepted, hreturned] at hbytes
  exact ⟨state 8, hreachable, haccepted, hreturned, (List.cons.inj hbytes).2.symm⟩

/-- A thread that finds the queue empty, or full, finds its lock free. -/
def LockFree (s : IntqSystem T) : IntqEvent T → Prop
  | .test t =>
    match s.pc t with
    | .testing op => s.queue.blocked op.slot = true → s.queue.holder = none
    | _ => True
  | _ => True

instance (s : IntqSystem T) (e : IntqEvent T) : Decidable (s.LockFree e) := by
  unfold LockFree
  split
  · split <;> infer_instance
  · infer_instance

/-- **What a thread has found still holds** when it acquires the lock and when it enters
`wait`; nobody sleeps in `lock_acquire`. -/
structure Fresh (s : IntqSystem T) : Prop where
  locking : ∀ t op, s.current = some t → s.pc t = .locking op →
    s.queue.blocked op.slot = true ∧ s.queue.holder = none
  entering : ∀ t op, s.current = some t → s.pc t = .entering op → s.queue.blocked op.slot = true
  queued : ∀ t op, s.pc t ≠ .queued op

omit [DecidableEq T] in
/-- Nothing has been found while nobody runs. -/
theorem Fresh.of_none (hcur : s.current = none) (hqueued : ∀ t op, s.pc t ≠ .queued op) :
    s.Fresh where
  locking t op ht := by rw [hcur] at ht; cases ht
  entering t op ht := by rw [hcur] at ht; cases ht
  queued := hqueued

/-- The running thread is the only one to look at. -/
theorem Fresh.of_some {p : IntqPc} (hcur : s'.current = some t) (hpc : s'.pc = update s.pc t p)
    (hlocking : ∀ op, p = .locking op → s'.queue.blocked op.slot = true ∧ s'.queue.holder = none)
    (hentering : ∀ op, p = .entering op → s'.queue.blocked op.slot = true)
    (hqueued : ∀ t op, s'.pc t ≠ .queued op) : s'.Fresh where
  locking u op hu hop := by
    rw [hcur] at hu
    cases hu
    exact hlocking op (by simpa [hpc] using hop)
  entering u op hu hop := by
    rw [hcur] at hu
    cases hu
    exact hentering op (by simpa [hpc] using hop)
  queued := hqueued

theorem queued_update {pc : T → IntqPc} (p : IntqPc) (hpc : ∀ t op, pc t ≠ .queued op)
    (hp : ∀ op, p ≠ .queued op) (t u : T) (op : IntqOp) : update pc t p u ≠ .queued op :=
  (Function.forall_update_iff pc fun _ p => p ≠ .queued op).mpr ⟨hp op, fun u _ => hpc u op⟩ u

omit [DecidableEq T] in
theorem OnlyUnblocks.queued {pc pc' : T → IntqPc} (h : OnlyUnblocks pc pc')
    (hpc : ∀ t op, pc t ≠ .queued op) (t : T) (op : IntqOp) : pc' t ≠ .queued op := by
  rcases h t with heq | ⟨op', -, heq⟩
  · rw [heq]
    exact hpc t op
  · rw [heq]
    exact nofun

/-- A thread gets a lock nobody holds without sleeping. -/
theorem Control.acquired_eq (h : s.Control) (hholder : s.queue.holder = none) (t : T) (op : IntqOp)
    (e : Semaphore.Event T) :
    s.acquired t op e = { s with
      queue := s.queue.setLock (s.queue.semaphore.apply e) (some t)
      pc := update s.pc t (.entering op)
      current := some t } := by
  obtain ⟨owner, howned, hheld, -⟩ := h.owned
  rw [← hheld, hholder] at howned
  simp only [Option.toList_none, length_nil, Nat.add_zero] at howned
  have hdown := Semaphore.down_of_pos (Nat.lt_of_lt_of_eq Nat.one_pos howned.symm) t
  simp [IntqSystem.acquired, hdown]

/-- **Every step keeps what is found**, if the lock is free where it matters. -/
theorem Fresh.step (h : s.Fresh) (hc : s.Control) (hf : s.Fifo) (he : s.Enabled e)
    (hfree : s.LockFree e) (hcode : s.apply e = some s') : s'.Fresh := by
  cases e with
  | call t op =>
    cases hcode
    exact .of_some rfl rfl nofun nofun (queued_update (.testing op) h.queued nofun t)
  | test t =>
    obtain ⟨hcur, hpc⟩ := he
    cases hop : s.pc t with
    | testing op =>
      cases hblocked : s.queue.blocked op.slot with
      | true =>
        simp only [apply, hop, hblocked, if_true, Option.some.injEq] at hcode
        subst hcode
        refine .of_some hcur rfl (fun op' hop' => ?_) nofun
          (queued_update (.locking op) h.queued nofun t)
        cases hop'
        simp only [LockFree, hop] at hfree
        exact ⟨hblocked, hfree hblocked⟩
      | false =>
        obtain ⟨s₁, hperform, -, -, -, hpc₁⟩ := perform_spec hc hf hblocked
        simp [apply, hop, hblocked, hperform] at hcode
        subst hcode
        exact .of_none rfl (queued_update .idle (hpc₁.queued h.queued) nofun t)
    | _ => rw [hop] at hpc; cases hpc
  | acquire t =>
    obtain ⟨hcur, hpc⟩ := he
    cases hop : s.pc t with
    | locking op =>
      obtain ⟨hblocked, hholder⟩ := h.locking t op hcur hop
      have hne : s.queue.holder ≠ some t := by rw [hholder]; exact nofun
      simp only [apply, hop, assert_of hne, some_bind, Option.some.injEq] at hcode
      subst hcode
      rw [hc.acquired_eq hholder]
      refine .of_some rfl rfl nofun (fun op' hop' => ?_)
        (queued_update (.entering op) h.queued nofun t)
      cases hop'
      exact hblocked
    | _ => rw [hop] at hpc; cases hpc
  | wait t =>
    cases hop : s.pc t with
    | entering op =>
      have hblocked := blocked_of_wait hop hcode
      simp only [apply, hop, IntqSystem.wait, assert_of hblocked, some_bind, Option.some.injEq] at hcode
      subst hcode
      exact .of_none rfl (queued_update (.waiting op) h.queued nofun t)
    | _ => simp [apply, hop] at hcode
  | resumeLock t =>
    obtain ⟨-, hpc, -⟩ := he
    cases hop : s.pc t with
    | queued op => exact absurd hop (h.queued t op)
    | _ => rw [hop] at hpc; cases hpc
  | resumeWait t =>
    obtain ⟨hcur, hpc⟩ := he
    cases hop : s.pc t with
    | unblocked op =>
      obtain ⟨hholder, -⟩ := hc.resumeWait hcur hop
      simp only [apply, hop, assert_of hholder, some_bind, Option.some.injEq] at hcode
      subst hcode
      exact .of_some rfl rfl nofun nofun (queued_update (.testing op) h.queued nofun t)
    | _ => rw [hop] at hpc; cases hpc
  | interrupt op =>
    obtain ⟨s₁, hperform, -, -, hcur₁, hpc₁⟩ := perform_spec hc hf he.2
    rw [apply, hperform] at hcode
    cases hcode
    exact .of_none (hcur₁.trans he.1) (hpc₁.queued h.queued)

/-- **Waiters find what they have tested for.**  In a run in which every thread that
finds the queue empty, or full, finds its lock free, a thread that is about to enter
`wait` finds the asserted condition and an empty slot, and no assertion fails. -/
theorem waiters_find_condition {N : Nat} {state : Nat → IntqSystem T} {label : Nat → IntqEvent T}
    (hrun : system.Run N state label) (hfree : ∀ n, n < N → (state n).LockFree (label n)) {n : Nat}
    (hn : n ≤ N) :
    (∀ t op, (state n).pc t = .entering op →
      (state n).queue.blocked op.slot = true ∧ (state n).queue.waiter op.slot = none) ∧
    ∀ e, (state n).Enabled e → ∃ s', (state n).apply e = some s' := by
  have hinv : ∀ m, m ≤ N → (state m).Inv := fun m hm => inv_reachable (hrun.reachable hm)
  have hfresh : (state n).Fresh := by
    refine TransitionSystem.keep (P := Fresh) (Nat.zero_le n) (fun m _ hm hm' => ?_) ?_
    · obtain ⟨hc, hf⟩ := hinv m (by omega)
      obtain ⟨he, hcode⟩ := hrun.step m (by omega)
      exact hm'.step hc hf he (hfree m (by omega)) hcode
    · obtain ⟨buf, hbuf, hstart⟩ := hrun.init
      rw [hstart]
      exact .of_none rfl fun t op => nofun
  obtain ⟨hc, hf⟩ := hinv n hn
  have hfound : ∀ t op, (state n).pc t = .entering op → (state n).queue.blocked op.slot = true :=
    fun t op ht => hfresh.entering t op (hc.active t (by rw [ht]; rfl)) ht
  refine ⟨fun t op ht => ⟨hfound t op ht, ?_⟩, fun e he => ?_⟩
  · exact hc.waiter_none (by rw [ht]; rfl) (fun op' hop' => by rw [ht] at hop'; cases hop') _
  · obtain ⟨s', hcode, -⟩ := step_spec hc hf he fun t op _ ht => hfound t op ht
    exact ⟨s', hcode⟩

/-- One thread waits, is woken, and waits again. -/
theorem waiters_find_condition_again : ∃ s : IntqSystem Bool, system.Reachable s ∧
    s.pc true = .entering .getc ∧ s.returned = [7] ∧ s.queue.empty = true ∧
      s.queue.waiter .notEmpty = none := by
  let events : List (IntqEvent Bool) := [.call true .getc, .test true, .acquire true, .wait true,
    .interrupt (.putc 7), .resumeWait true, .test true, .call true .getc, .test true, .acquire true]
  let state := after (orSelf apply) zeroed events
  have hrun : system.Run 10 state fun n => events.getD n (.test true) :=
    TransitionSystem.Run.of_checked_labels ⟨_, _, rfl⟩ events _ (by decide +kernel)
  have hfree : ∀ n, n < 10 → (state n).LockFree (events.getD n (.test true)) := by decide +kernel
  have hpc : (state 10).pc true = .entering .getc := by decide +kernel
  have hreturned : (state 10).returned = [7] := by decide +kernel
  obtain ⟨hfound, -⟩ := waiters_find_condition hrun hfree (Nat.le_refl 10)
  obtain ⟨hempty, hslot⟩ := hfound true .getc hpc
  exact ⟨state 10, hrun.reachable (Nat.le_refl 10), hpc, hreturned, hempty, hslot⟩

/-- **A stale wait panics.**  One thread waits for a byte with the lock, a second one has
found the queue empty and sleeps in `lock_acquire`; two bytes arrive, and the first thread
takes one of them.  The second thread gets the lock and enters `wait`, which asserts that
the queue is empty. -/
theorem stale_wait_panics : ∃ s : IntqSystem Bool, system.Reachable s ∧
    s.pc true = .entering .getc ∧ s.Enabled (.wait true) ∧ s.queue.contents = [8] ∧
      s.apply (.wait true) = none := by
  let events : List (IntqEvent Bool) := [.call false .getc, .test false, .acquire false,
    .wait false, .call true .getc, .test true, .acquire true, .interrupt (.putc 7),
    .interrupt (.putc 8), .resumeWait false, .test false, .resumeLock true]
  let state := after (orSelf apply) zeroed events
  have hrun : system.Run 12 state fun n => events.getD n (.test true) :=
    TransitionSystem.Run.of_checked_labels ⟨_, _, rfl⟩ events _ (by decide +kernel)
  refine ⟨_, hrun.reachable (Nat.le_refl 12), ?_, ?_, ?_, ?_⟩
  · decide +kernel
  · decide +kernel
  · decide +kernel
  · exact Option.isNone_iff_eq_none.mp (by decide +kernel)

end IntqSystem
end Pintos
