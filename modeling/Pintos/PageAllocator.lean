import Mathlib.Data.List.Pairwise
import Mathlib.Logic.Function.Basic
import Pintos.PagePools
import Pintos.TransitionSystem

/-!
# The page allocator

`threads/palloc.c`.  `palloc_get_multiple` looks for a run of clear bits and sets them,
all under the lock of the pool; `palloc_free_multiple` clears bits **without** the lock.
Here a call in progress tests, sets or clears one bit a step, and any number of calls are
in progress at a time, so that a scan may see a range of which only a part has been freed.

What keeps the pages apart is that bits are *set* under the lock only.  A call that has
found a bit clear finds it clear when it comes to set it, since everybody else who could
touch it only clears bits.  So **no page is owned twice** (`no_page_owned_twice`): a bit
is set exactly while its page is owned by a caller, is in the part of a range a get has
set so far, or in the part a free has not cleared yet (`Ownership.used`), and these never
overlap.

The contents of pages are left out, and with them `PAL_ZERO`.
-/

namespace Pintos
open List
open TransitionSystem (after orSelf)
open Extent (mem_iff notMem_of_len apart_of_len)
open Function (update update_of_ne update_self)

/-! ## Calls -/

/-- `enum palloc_flags`. -/
structure PallocFlags where
  palAssert : Bool
  palUser : Bool
  deriving DecidableEq

/-- `flags & PAL_USER ? &user_pool : &kernel_pool`. -/
def PallocFlags.pool (flags : PallocFlags) : PoolId :=
  if flags.palUser then .user else .kernel

/-- Where a call is. -/
inductive PallocPc where
  | idle
  /-- In `palloc_get_multiple`, about to acquire the lock. -/
  | acquiring (flags : PallocFlags) (pageCnt : Nat)
  /-- In `bitmap_scan`, about to test bit `i + j` for a run that begins at `i`. -/
  | scanning (flags : PallocFlags) (pageCnt i j : Nat)
  /-- In `bitmap_set_multiple`, about to set bit `pageIdx + j`. -/
  | flipping (flags : PallocFlags) (pageCnt pageIdx j : Nat)
  /-- `bitmap_scan_and_flip` has returned `pageIdx`; about to release the lock. -/
  | releasing (flags : PallocFlags) (pageCnt pageIdx : Nat)
  /-- In `palloc_free_multiple`, in `bitmap_all`, about to test bit `pageIdx + j`. -/
  | checking (pool : PoolId) (pageIdx pageCnt j : Nat)
  /-- In `bitmap_set_multiple`, about to clear bit `pageIdx + j`. -/
  | clearing (pool : PoolId) (pageIdx pageCnt j : Nat)
  deriving DecidableEq

/-- The call is between `lock_acquire` and `lock_release` of the pool's lock. -/
def PallocPc.locks (p : PoolId) : PallocPc → Prop
  | .scanning flags _ _ _ | .flipping flags _ _ _ | .releasing flags _ _ => flags.pool = p
  | .idle | .acquiring _ _ | .checking _ _ _ _ | .clearing _ _ _ _ => False

/-- A range of pages a caller owns: where it begins, how many pages it has, and the pool
its pages were asked from. -/
structure Grant where
  pool : PoolId
  pages : Nat
  pageCnt : Nat
  deriving DecidableEq

/-- The numbers of the pages. -/
def Grant.extent (g : Grant) : Extent :=
  ⟨pgNo g.pages, g.pageCnt⟩

/-- What the caller keeps when the pages of an extent are freed. -/
def Grant.minus (g : Grant) (f : Extent) : List Grant :=
  if f.Within g.extent then
    (g.extent.minus f).map fun x => ⟨g.pool, x.start * pgsize, x.len⟩
  else
    [g]

/-- **Calls on the two pools.**  `T` names the calls that can be in progress at a time:
one for each thread, and one more for the free that `thread_schedule_tail` may make in the
middle of a thread's own call.  `owned` is what the callers own; the code has no
counterpart of it. -/
structure PageAllocator (T : Type) where
  pool : PoolId → Pool T
  pc : T → PallocPc
  owned : List Grant

inductive PallocEvent (T : Type) where
  /-- `palloc_get_multiple` is called. -/
  | get (t : T) (flags : PallocFlags) (pageCnt : Nat)
  /-- `palloc_free_multiple` is called. -/
  | free (t : T) (pages pageCnt : Nat)
  /-- A call goes on. -/
  | go (t : T)
  deriving DecidableEq

namespace PageAllocator
variable {T : Type} [DecidableEq T]

/-- The state with the call at another place. -/
def goto (s : PageAllocator T) (t : T) (c : PallocPc) : PageAllocator T :=
  { s with pc := update s.pc t c }

def setMap (s : PageAllocator T) (p : PoolId) (b : Bitmap) : PageAllocator T :=
  { s with pool := update s.pool p { s.pool p with usedMap := b } }

def setHolder (s : PageAllocator T) (p : PoolId) (holder : Option T) : PageAllocator T :=
  { s with pool := update s.pool p { s.pool p with holder } }

def setOwned (s : PageAllocator T) (owned : List Grant) : PageAllocator T :=
  { s with owned }

/-- The bounds are asserted before the first bit of a range is looked at. -/
def assertFirst (b : Bitmap) (start cnt j : Nat) : Option Unit :=
  if j = 0 then b.assertRange start cnt else some ()

/-- `lock_acquire`, and the beginning of `bitmap_scan`. -/
def acquired (s : PageAllocator T) (t : T) (flags : PallocFlags) (pageCnt : Nat) :
    PageAllocator T :=
  (s.setHolder flags.pool (some t)).goto t <|
    if pageCnt ≤ (s.pool flags.pool).usedMap.bitCnt then .scanning flags pageCnt 0 0
    else .releasing flags pageCnt bitmapError

/-- One test of `bitmap_scan`.  A set bit ends the run that begins at `i`; after the last
bit of a run it is taken. -/
def scan (s : PageAllocator T) (t : T) (flags : PallocFlags) (pageCnt i j : Nat) :
    Option (PageAllocator T) := do
  let b := (s.pool flags.pool).usedMap
  assertFirst b i pageCnt j
  if ← b.test ((i + j) % unsignedSize) then
    let last := b.bitCnt - pageCnt
    some <| s.goto t <|
      if i + 1 ≤ last then .scanning flags pageCnt (i + 1) 0
      else .releasing flags pageCnt bitmapError
  else if j + 1 < pageCnt then
    some (s.goto t (.scanning flags pageCnt i (j + 1)))
  else
    some <| s.goto t <|
      if i ≠ bitmapError then .flipping flags pageCnt i 0 else .releasing flags pageCnt i

/-- One bit of `bitmap_set_multiple` in `bitmap_scan_and_flip`. -/
def flip (s : PageAllocator T) (t : T) (flags : PallocFlags) (pageCnt pageIdx j : Nat) :
    Option (PageAllocator T) := do
  let b := (s.pool flags.pool).usedMap
  assertFirst b pageIdx pageCnt j
  let b ← b.set ((pageIdx + j) % unsignedSize) true
  some <| (s.setMap flags.pool b).goto t <|
    if j + 1 < pageCnt then .flipping flags pageCnt pageIdx (j + 1)
    else .releasing flags pageCnt pageIdx

/-- `lock_release` and the rest of `palloc_get_multiple`.  The caller owns what is
returned. -/
def release (s : PageAllocator T) (t : T) (flags : PallocFlags) (pageCnt pageIdx : Nat) :
    Option (PageAllocator T) := do
  assert ((s.pool flags.pool).holder = some t)
  let s := s.setHolder flags.pool none
  let pages :=
    if pageIdx ≠ bitmapError then
      ((s.pool flags.pool).base + pgsize * pageIdx) % unsignedSize
    else 0
  if pages ≠ 0 then
    some ((s.setOwned (s.owned ++ [⟨flags.pool, pages, pageCnt⟩])).goto t .idle)
  else do
    assert (flags.palAssert = false)
    some (s.goto t .idle)

/-- One test of `bitmap_all` in `palloc_free_multiple`. -/
def check (s : PageAllocator T) (t : T) (p : PoolId) (pageIdx pageCnt j : Nat) :
    Option (PageAllocator T) := do
  let b := (s.pool p).usedMap
  assertFirst b pageIdx pageCnt j
  assert ((← b.test ((pageIdx + j) % unsignedSize)) = true)
  some <| s.goto t <|
    if j + 1 < pageCnt then .checking p pageIdx pageCnt (j + 1)
    else .clearing p pageIdx pageCnt 0

/-- One bit of `bitmap_set_multiple` in `palloc_free_multiple`. -/
def clear (s : PageAllocator T) (t : T) (p : PoolId) (pageIdx pageCnt j : Nat) :
    Option (PageAllocator T) := do
  let b := (s.pool p).usedMap
  assertFirst b pageIdx pageCnt j
  let b ← b.set ((pageIdx + j) % unsignedSize) false
  some <| (s.setMap p b).goto t <|
    if j + 1 < pageCnt then .clearing p pageIdx pageCnt (j + 1) else .idle

/-- The pool `palloc_free_multiple` finds a page in. -/
def poolOf (s : PageAllocator T) (pages : Nat) : Option PoolId :=
  if (s.pool .kernel).pageFromPool pages then some .kernel
  else if (s.pool .user).pageFromPool pages then some .user
  else none

/-- `palloc_free_multiple`, up to its use of the bitmap.  The caller gives up the pages. -/
def free (s : PageAllocator T) (t : T) (pages pageCnt : Nat) : Option (PageAllocator T) := do
  assert (pgOfs pages = 0)
  if pages = 0 ∨ pageCnt = 0 then
    some s
  else do
    let p ← s.poolOf pages
    let pageIdx := pgNo pages - pgNo (s.pool p).base
    some <| (s.setOwned (s.owned.flatMap (·.minus ⟨pgNo pages, pageCnt⟩))).goto t <|
      .checking p pageIdx pageCnt 0

/-- What a step does. -/
def apply (s : PageAllocator T) : PallocEvent T → Option (PageAllocator T)
  | .get t flags pageCnt => some (if pageCnt = 0 then s else s.goto t (.acquiring flags pageCnt))
  | .free t pages pageCnt => s.free t pages pageCnt
  | .go t =>
    match s.pc t with
    | .idle => some s
    | .acquiring flags pageCnt => some (s.acquired t flags pageCnt)
    | .scanning flags pageCnt i j => s.scan t flags pageCnt i j
    | .flipping flags pageCnt pageIdx j => s.flip t flags pageCnt pageIdx j
    | .releasing flags pageCnt pageIdx => s.release t flags pageCnt pageIdx
    | .checking p pageIdx pageCnt j => s.check t p pageIdx pageCnt j
    | .clearing p pageIdx pageCnt j => s.clear t p pageIdx pageCnt j

/-- When a step can be taken: a lock is acquired when it is free, and what is freed is
owned. -/
def Enabled (s : PageAllocator T) : PallocEvent T → Prop
  | .get t _ _ => s.pc t = .idle
  | .free t pages pageCnt => s.pc t = .idle ∧ pgOfs pages = 0 ∧
    (pages = 0 ∨ pageCnt = 0 ∨ ∃ g ∈ s.owned, Extent.Within ⟨pgNo pages, pageCnt⟩ g.extent)
  | .go t =>
    match s.pc t with
    | .idle => False
    | .acquiring flags _ => (s.pool flags.pool).holder = none
    | _ => True

instance (s : PageAllocator T) (e : PallocEvent T) : Decidable (s.Enabled e) := by
  cases e with
  | go t => unfold Enabled; dsimp only; split <;> infer_instance
  | _ => unfold Enabled; infer_instance

/-- **The calls on a machine** with the memory the BIOS reports and the given limit for
the user pool.  There is no run where `palloc_init` panics. -/
def system (ax : BitVec 16) (userPageLimit : Nat) :
    TransitionSystem (PageAllocator T) (PallocEvent T) :=
  .checked
    (fun s => ∃ words, pallocInit (initRamPages ax) userPageLimit words = some s.pool ∧
      (∀ t, s.pc t = .idle) ∧ s.owned = [])
    Enabled apply

end PageAllocator

/-! ## Who holds a page -/

/-- The pages a call holds: those it has set so far, or has not cleared yet. -/
def PallocPc.held (place : PoolId → PoolPlace) : PallocPc → Extent
  | .flipping flags _ pageIdx j => ⟨pgNo (place flags.pool).base + pageIdx, j⟩
  | .releasing flags pageCnt pageIdx =>
    if pageIdx = bitmapError then ⟨0, 0⟩ else ⟨pgNo (place flags.pool).base + pageIdx, pageCnt⟩
  | .checking p pageIdx pageCnt _ => ⟨pgNo (place p).base + pageIdx, pageCnt⟩
  | .clearing p pageIdx pageCnt j => ⟨pgNo (place p).base + (pageIdx + j), pageCnt - j⟩
  | .idle | .acquiring _ _ | .scanning _ _ _ _ => ⟨0, 0⟩

/-- A scan that found nothing holds nothing. -/
theorem PallocPc.held_releasing_error (place : PoolId → PoolPlace) (flags : PallocFlags)
    (pageCnt : Nat) : (PallocPc.releasing flags pageCnt bitmapError).held place = ⟨0, 0⟩ := by
  rw [held, if_pos rfl]

/-- **What a call knows.**  Its range is in the pool; under the lock, the bits it has
tested and not yet set are clear. -/
def PallocPc.Ok (place : PoolId → PoolPlace) (bit : PoolId → Nat → Bool) : PallocPc → Prop
  | .idle => True
  | .acquiring _ pageCnt => 0 < pageCnt
  | .scanning flags pageCnt i j => j < pageCnt ∧ i + pageCnt ≤ (place flags.pool).bitCnt ∧
    ∀ k, k < j → bit flags.pool (i + k) = false
  | .flipping flags pageCnt pageIdx j =>
    j < pageCnt ∧ pageIdx + pageCnt ≤ (place flags.pool).bitCnt ∧
      ∀ k, j ≤ k → k < pageCnt → bit flags.pool (pageIdx + k) = false
  | .releasing flags pageCnt pageIdx =>
    pageIdx ≠ bitmapError → 0 < pageCnt ∧ pageIdx + pageCnt ≤ (place flags.pool).bitCnt
  | .checking p pageIdx pageCnt j | .clearing p pageIdx pageCnt j =>
    j < pageCnt ∧ pageIdx + pageCnt ≤ (place p).bitCnt

/-- Clearing bits takes nothing from what a call knows, and setting bits of a pool it has
not locked does not either. -/
theorem PallocPc.Ok.mono {place : PoolId → PoolPlace} {bit bit' : PoolId → Nat → Bool}
    {c : PallocPc} (h : c.Ok place bit)
    (hbit : ∀ p, c.locks p → ∀ i, bit p i = false → bit' p i = false) : c.Ok place bit' := by
  cases c with
  | scanning flags pageCnt i j =>
    exact ⟨h.1, h.2.1, fun k hk => hbit _ rfl _ (h.2.2 k hk)⟩
  | flipping flags pageCnt pageIdx j =>
    exact ⟨h.1, h.2.1, fun k hj hk => hbit _ rfl _ (h.2.2 k hj hk)⟩
  | _ => exact h

/-- A range a caller owns is in the pool it was asked from. -/
structure Grant.Ok (place : PoolId → PoolPlace) (g : Grant) : Prop where
  pageCnt_pos : 0 < g.pageCnt
  aligned : pgOfs g.pages = 0
  within : g.extent.Within (place g.pool).dataPages

namespace Grant
variable {g : Grant} {f : Extent}

/-- A part of a range is in the same pool. -/
theorem Ok.minus {place : PoolId → PoolPlace} (h : g.Ok place) {x : Grant} (hx : x ∈ g.minus f) :
    x.Ok place := by
  unfold Grant.minus at hx
  split at hx
  · next hf =>
    obtain ⟨e, he, rfl⟩ := mem_map.mp hx
    have hwithin := Extent.within_of_mem_minus hf he
    refine ⟨Extent.len_pos_of_mem_minus he, Nat.mul_mod_left _ _, ?_⟩
    obtain ⟨hg, hg'⟩ := h.within
    obtain ⟨he, he'⟩ := hwithin
    simp only [extent, pgNo_mul] at hg hg' he he' ⊢
    exact ⟨by simp only; omega, by simp only; omega⟩
  · rw [mem_singleton] at hx
    exact hx ▸ h

/-- **Freeing takes out the pages freed**, where they are all in the range, or all not. -/
theorem mem_minus (h : f.Within g.extent ∨ f.Apart g.extent) (n : Nat) :
    (∃ x ∈ g.minus f, n ∈ x.extent) ↔ n ∈ g.extent ∧ n ∉ f := by
  unfold Grant.minus
  split
  · next hf =>
    rw [← Extent.mem_minus hf]
    simp only [mem_map, exists_exists_and_eq_and, extent, pgNo_mul]
  · next hf =>
    simp only [mem_singleton, exists_eq_left]
    exact ⟨fun hn => ⟨hn, fun hnf => (h.resolve_left hf) n hnf hn⟩, And.left⟩

theorem pairwise_minus : (g.minus f).Pairwise fun x x' => x.extent.Apart x'.extent := by
  unfold Grant.minus
  split
  · rw [pairwise_map]
    simpa only [extent, pgNo_mul] using Extent.pairwise_minus g.extent f
  · exact pairwise_singleton _ _

end Grant

namespace PageAllocator
variable {T : Type}

def place (s : PageAllocator T) (p : PoolId) : PoolPlace :=
  (s.pool p).place

def bit (s : PageAllocator T) (p : PoolId) (i : Nat) : Bool :=
  (s.pool p).usedMap.bit i

/-- The number of the page a bit is about. -/
def page (s : PageAllocator T) (p : PoolId) (i : Nat) : Nat :=
  pgNo (s.place p).base + i

def held (s : PageAllocator T) (t : T) : Extent :=
  (s.pc t).held s.place

/-- Somebody holds the page. -/
def Held (s : PageAllocator T) (n : Nat) : Prop :=
  (∃ g ∈ s.owned, n ∈ g.extent) ∨ ∃ t, n ∈ s.held t

/-- **Nobody holds a page twice, and the bits say which are held.** -/
structure Ownership (s : PageAllocator T) : Prop where
  owned_apart : s.owned.Pairwise fun g g' => g.extent.Apart g'.extent
  call_owned : ∀ t, ∀ g ∈ s.owned, (s.held t).Apart g.extent
  calls_apart : ∀ t u, t ≠ u → (s.held t).Apart (s.held u)
  used : ∀ p i, i < (s.place p).bitCnt → (s.bit p i = true ↔ s.Held (s.page p i))

/-- What holds in every reachable state. -/
structure Inv (ramPages : Nat) (s : PageAllocator T) : Prop where
  layout : LaidOut ramPages s.place
  holder : ∀ p t, (s.pool p).holder = some t ↔ (s.pc t).locks p
  call_ok : ∀ t, (s.pc t).Ok s.place s.bit
  owned_ok : ∀ g ∈ s.owned, g.Ok s.place
  ownership : s.Ownership

variable [DecidableEq T] {s s' : PageAllocator T} {t : T} {c : PallocPc} {ramPages : Nat}

/-- The call or a caller holds the page. -/
def Ours (s : PageAllocator T) (t : T) (n : Nat) : Prop :=
  n ∈ s.held t ∨ ∃ g ∈ s.owned, n ∈ g.extent

theorem held_iff (s : PageAllocator T) (t : T) (n : Nat) :
    s.Held n ↔ s.Ours t n ∨ ∃ u, u ≠ t ∧ n ∈ s.held u := by
  constructor
  · rintro (hn | ⟨u, hn⟩)
    · exact .inl (.inr hn)
    · by_cases hu : u = t
      · exact .inl (.inl (hu ▸ hn))
      · exact .inr ⟨u, hu, hn⟩
  · rintro ((hn | hn) | ⟨u, -, hn⟩)
    · exact .inr ⟨t, hn⟩
    · exact .inl hn
    · exact .inr ⟨u, hn⟩

theorem held_self (hplace : s'.place = s.place) (hpc : s'.pc = update s.pc t c) :
    s'.held t = c.held s.place := by
  rw [held, hpc, hplace, update_self]

/-- A bit is set for what the call or a caller holds, or for somebody else. -/
theorem Ownership.bit_iff (h : s.Ownership) (t : T) {p : PoolId} {i : Nat}
    (hi : i < (s.place p).bitCnt) : s.bit p i = true ↔
      s.Ours t (s.page p i) ∨ s.bit p i = true ∧ ¬s.Ours t (s.page p i) := by
  have hused : s.Ours t (s.page p i) → s.bit p i = true :=
    fun hn => (h.used p i hi).mpr ((held_iff s t _).mpr (.inl hn))
  by_cases hn : s.Ours t (s.page p i)
  · simp [hn, hused hn]
  · simp [hn]

section
variable (h : s.Ownership) (hplace : s'.place = s.place) (hpc : s'.pc = update s.pc t c)
include h hplace hpc

/-- **A step of one call.**  What it or a caller holds then, it or a caller held before, or
nobody. -/
theorem Ownership.step (howned : s'.owned.Pairwise fun g g' => g.extent.Apart g'.extent)
    (hcall : ∀ g ∈ s'.owned, (c.held s.place).Apart g.extent)
    (hfrom : ∀ n, s'.Ours t n → s.Ours t n ∨ ¬s.Held n)
    (hused : ∀ p i, i < (s.place p).bitCnt →
      (s'.bit p i = true ↔ s'.Ours t (s.page p i) ∨ s.bit p i = true ∧ ¬s.Ours t (s.page p i))) :
    s'.Ownership := by
  have hother : ∀ u, u ≠ t → s'.held u = s.held u := fun u hu => by
    rw [held, hpc, hplace, update_of_ne hu, held]
  have hold : ∀ u, u ≠ t → ∀ n ∈ s.held u, ¬s.Ours t n := by
    rintro u hu n hn (ht | ⟨g, hg, hng⟩)
    · exact h.calls_apart u t hu n hn ht
    · exact h.call_owned u g hg n hn hng
  have hnew : ∀ u, u ≠ t → ∀ n ∈ s'.held u, ¬s'.Ours t n := by
    intro u hu n hn hours
    rw [hother u hu] at hn
    rcases hfrom n hours with hours | hfree
    · exact hold u hu n hn hours
    · exact hfree (.inr ⟨u, hn⟩)
  refine ⟨howned, fun u g hg => ?_, fun u v huv => ?_, fun p i hi => ?_⟩
  · by_cases hu : u = t
    · rw [hu, held_self hplace hpc]
      exact hcall g hg
    · exact fun n hn hng => hnew u hu n hn (.inr ⟨g, hg, hng⟩)
  · by_cases hu : u = t
    · subst hu
      exact fun n hn hnv => hnew v (Ne.symm huv) n hnv (.inl hn)
    · by_cases hv : v = t
      · subst hv
        exact fun n hnu hn => hnew u hu n hnu (.inl hn)
      · rw [hother u hu, hother v hv]
        exact h.calls_apart u v huv
  · rw [hplace] at hi
    have hpage : s'.page p i = s.page p i := by rw [page, page, hplace]
    rw [hpage, hused p i hi, h.used p i hi, held_iff s t, held_iff s' t]
    refine or_congr_right ⟨fun ⟨hheld, hnot⟩ => ?_, fun ⟨u, hu, hn⟩ => ?_⟩
    · obtain ⟨u, hu, hn⟩ := hheld.resolve_left hnot
      exact ⟨u, hu, by rwa [hother u hu]⟩
    · rw [hother u hu] at hn
      exact ⟨.inr ⟨u, hu, hn⟩, hold u hu _ hn⟩

/-- **Pages pass between the call and its caller.** -/
theorem Ownership.pass (hbit : s'.bit = s.bit)
    (howned : s'.owned.Pairwise fun g g' => g.extent.Apart g'.extent)
    (hcall : ∀ g ∈ s'.owned, (c.held s.place).Apart g.extent)
    (hsame : ∀ n, s'.Ours t n ↔ s.Ours t n) : s'.Ownership := by
  refine h.step hplace hpc howned hcall (fun n hn => .inl ((hsame n).mp hn)) fun p i hi => ?_
  rw [hbit, hsame]
  exact h.bit_iff t hi

/-- **A call goes on** with the pages it has. -/
theorem Ownership.walk (hbit : s'.bit = s.bit) (howned : s'.owned = s.owned)
    (hheld : ∀ n, n ∈ c.held s.place ↔ n ∈ s.held t) : s'.Ownership := by
  refine h.pass hplace hpc hbit (howned ▸ h.owned_apart) (fun g hg n hn => ?_) fun n => ?_
  · rw [howned] at hg
    exact h.call_owned t g hg n ((hheld n).mp hn)
  · rw [Ours, held_self hplace hpc, hheld, howned, Ours]

end

variable {p : PoolId}

/-- **One bit is changed**, and the call holds its page from then on, or no longer. -/
theorem Ownership.setBit (h : s.Ownership) (hlayout : LaidOut ramPages s.place) {k : Nat} {v : Bool}
    (hk : k < (s.place p).bitCnt) (hplace : s'.place = s.place) (hpc : s'.pc = update s.pc t c)
    (howned : s'.owned = s.owned)
    (hbit : ∀ q i, s'.bit q i = if q = p ∧ i = k then v else s.bit q i)
    (hmem : ∀ n, n ∈ c.held s.place ↔ n ∈ s.held t ∧ n ≠ s.page p k ∨ v = true ∧ n = s.page p k)
    (hset : v = true → s.bit p k = false) (hclear : v = false → s.page p k ∈ s.held t) :
    s'.Ownership := by
  have hfree : v = true → ¬s.Held (s.page p k) := by
    intro hv hheld
    rw [← h.used p k hk, hset hv] at hheld
    cases hheld
  have hours : ∀ n, s'.Ours t n ↔
      n ∈ s.held t ∧ n ≠ s.page p k ∨ v = true ∧ n = s.page p k ∨ ∃ g ∈ s.owned, n ∈ g.extent := by
    intro n
    rw [Ours, held_self hplace hpc, hmem, howned, or_assoc]
  refine h.step hplace hpc (howned ▸ h.owned_apart) (fun g hg n hn hng => ?_) (fun n hn => ?_)
    fun q i hi => ?_
  · rw [howned] at hg
    rcases (hmem n).mp hn with ⟨hold, -⟩ | ⟨hv, rfl⟩
    · exact h.call_owned t g hg n hold hng
    · exact hfree hv (.inl ⟨g, hg, hng⟩)
  · rcases (hours n).mp hn with ⟨hold, -⟩ | ⟨hv, rfl⟩ | hg
    · exact .inl (.inl hold)
    · exact .inr (hfree hv)
    · exact .inl (.inr hg)
  · rw [hbit, hours]
    by_cases hqi : q = p ∧ i = k
    · obtain ⟨rfl, rfl⟩ := hqi
      cases v with
      | true => simp
      | false =>
        have hnot : ¬∃ g ∈ s.owned, s.page q i ∈ g.extent := fun ⟨g, hg, hng⟩ =>
          h.call_owned t g hg _ (hclear rfl) hng
        simp [Ours, hclear rfl, hnot]
    · have hne : s.page q i ≠ s.page p k := fun heq => hqi (hlayout.page_inj hi hk heq)
      simp only [if_neg hqi, hne, ne_eq, not_false_eq_true, and_true, and_false, false_or]
      rw [← Ours]
      exact h.bit_iff t hi

/-- **A call hands its pages to the caller.** -/
theorem Ownership.grant (h : s.Ownership) {g : Grant} (hplace : s'.place = s.place)
    (hpc : s'.pc = update s.pc t .idle) (howned : s'.owned = s.owned ++ [g])
    (hbit : s'.bit = s.bit) (hg : g.extent = s.held t) : s'.Ownership := by
  refine h.pass hplace hpc hbit ?_ (fun g' _ => apart_of_len rfl) fun n => ?_
  · rw [howned, pairwise_append]
    refine ⟨h.owned_apart, pairwise_singleton _ _, fun g' hg' g'' hg'' => ?_⟩
    rw [mem_singleton] at hg''
    rw [hg'', hg]
    exact (h.call_owned t g' hg').symm
  · have hnone : n ∉ s'.held t := by
      rw [held_self hplace hpc]
      exact notMem_of_len rfl
    simp [Ours, hnone, howned, or_and_right, exists_or, hg, or_comm]

/-- **A caller gives up pages**, which the call that frees them holds from then on. -/
theorem Ownership.reclaim (h : s.Ownership) {f : Extent} (hplace : s'.place = s.place)
    (hpc : s'.pc = update s.pc t c) (howned : s'.owned = s.owned.flatMap (·.minus f))
    (hbit : s'.bit = s.bit) (hidle : (s.held t).len = 0) (hf : c.held s.place = f)
    (hfreed : ∃ g ∈ s.owned, f.Within g.extent) : s'.Ownership := by
  obtain ⟨g₀, hg₀, hwithin⟩ := hfreed
  have hcases : ∀ g ∈ s.owned, f.Within g.extent ∨ f.Apart g.extent := by
    intro g hg
    by_cases heq : g = g₀
    · exact .inl (heq ▸ hwithin)
    · have hsymm : Std.Symm fun g g' : Grant => g.extent.Apart g'.extent :=
        ⟨fun g g' hgg => hgg.symm⟩
      have hapart := h.owned_apart.forall hg₀ hg (Ne.symm heq)
      exact .inr (hapart.mono (fun n => hwithin.mem) fun n hn => hn)
  have hparts : ∀ n, (∃ x ∈ s'.owned, n ∈ x.extent) ↔ (∃ g ∈ s.owned, n ∈ g.extent) ∧ n ∉ f := by
    intro n
    constructor
    · rintro ⟨x, hx, hn⟩
      rw [howned, mem_flatMap] at hx
      obtain ⟨g, hg, hx⟩ := hx
      obtain ⟨hng, hnf⟩ := (Grant.mem_minus (hcases g hg) n).mp ⟨x, hx, hn⟩
      exact ⟨⟨g, hg, hng⟩, hnf⟩
    · rintro ⟨⟨g, hg, hng⟩, hnf⟩
      obtain ⟨x, hx, hn⟩ := (Grant.mem_minus (hcases g hg) n).mpr ⟨hng, hnf⟩
      exact ⟨x, by rw [howned]; exact mem_flatMap.mpr ⟨g, hg, hx⟩, hn⟩
  refine h.pass hplace hpc hbit ?_ (fun x hx n hn hnx => ?_) fun n => ?_
  · rw [howned, pairwise_flatMap]
    refine ⟨fun g _ => Grant.pairwise_minus, h.owned_apart.imp_of_mem ?_⟩
    intro g g' hg hg' hapart x hx x' hx' n hn hn'
    exact hapart n ((Grant.mem_minus (hcases g hg) n).mp ⟨x, hx, hn⟩).1
      ((Grant.mem_minus (hcases g' hg') n).mp ⟨x', hx', hn'⟩).1
  · exact ((hparts n).mp ⟨x, hx, hnx⟩).2 (hf ▸ hn)
  · rw [Ours, Ours, held_self hplace hpc, hf, hparts]
    by_cases hn : n ∈ f
    · exact ⟨fun _ => .inr ⟨g₀, hg₀, hwithin.mem hn⟩, fun _ => .inl hn⟩
    · simp [hn, notMem_of_len hidle]

/-! ## The steps -/

@[simp] theorem place_goto (s : PageAllocator T) (t : T) (c : PallocPc) :
    (s.goto t c).place = s.place := rfl

@[simp] theorem bit_goto (s : PageAllocator T) (t : T) (c : PallocPc) :
    (s.goto t c).bit = s.bit := rfl

section
omit [DecidableEq T]

@[simp] theorem place_setOwned (s : PageAllocator T) (owned : List Grant) :
    (s.setOwned owned).place = s.place := rfl

@[simp] theorem bit_setOwned (s : PageAllocator T) (owned : List Grant) :
    (s.setOwned owned).bit = s.bit := rfl

@[simp] theorem place_setHolder (s : PageAllocator T) (p : PoolId) (holder : Option T) :
    (s.setHolder p holder).place = s.place := by
  funext q
  by_cases hq : q = p
  · subst hq
    simp [place, setHolder, Pool.place]
  · simp [place, setHolder, hq]

@[simp] theorem bit_setHolder (s : PageAllocator T) (p : PoolId) (holder : Option T) :
    (s.setHolder p holder).bit = s.bit := by
  funext q i
  by_cases hq : q = p
  · subst hq
    simp [bit, setHolder]
  · simp [bit, setHolder, hq]

theorem place_setMap {b : Bitmap} (hcnt : b.bitCnt = (s.pool p).usedMap.bitCnt) :
    (s.setMap p b).place = s.place := by
  funext q
  by_cases hq : q = p
  · subst hq
    simp [place, setMap, Pool.place, hcnt]
  · simp [place, setMap, hq]

theorem bit_setMap {b : Bitmap} {k : Nat} {v : Bool} (hset : (s.pool p).usedMap.SetAt k v b)
    (q : PoolId) (i : Nat) :
    (s.setMap p b).bit q i = if q = p ∧ i = k then v else s.bit q i := by
  by_cases hq : q = p
  · subst hq
    simp [bit, setMap, hset.bit_eq]
  · simp [bit, setMap, hq]

theorem holder_setMap (s : PageAllocator T) (p : PoolId) (b : Bitmap) (q : PoolId) :
    ((s.setMap p b).pool q).holder = (s.pool q).holder := by
  by_cases hq : q = p
  · subst hq
    simp [setMap]
  · simp [setMap, hq]

end

/-- **One call moves.**  The others know what they knew, if bits of the pools they have
locked were not set. -/
theorem Inv.move (h : s.Inv ramPages) (hplace : s'.place = s.place)
    (hpc : s'.pc = update s.pc t c)
    (hholder : ∀ p u, (s'.pool p).holder = some u ↔ (update s.pc t c u).locks p)
    (hbit : ∀ u, u ≠ t → ∀ p, (s.pc u).locks p → ∀ i, s.bit p i = false → s'.bit p i = false)
    (hok : c.Ok s.place s'.bit) (howned : ∀ g ∈ s'.owned, g.Ok s.place)
    (hownership : s'.Ownership) : s'.Inv ramPages where
  layout := hplace ▸ h.layout
  holder := by rw [hpc]; exact hholder
  call_ok u := by
    rw [hpc, hplace]
    by_cases hu : u = t
    · rw [hu, update_self]
      exact hok
    · rw [update_of_ne hu]
      exact (h.call_ok u).mono (hbit u hu)
  owned_ok := hplace ▸ howned
  ownership := hownership

/-- The locks are held by those who held them. -/
theorem Inv.holder_same (h : s.Inv ramPages) (hholder : ∀ p, (s'.pool p).holder = (s.pool p).holder)
    (hlocks : ∀ p, c.locks p ↔ (s.pc t).locks p) (p : PoolId) (u : T) :
    (s'.pool p).holder = some u ↔ (update s.pc t c u).locks p := by
  rw [hholder, h.holder]
  by_cases hu : u = t
  · rw [hu, update_self, hlocks]
  · rw [update_of_ne hu]

/-- **A call goes on** and touches no bit. -/
theorem Inv.walk (h : s.Inv ramPages) (hlocks : ∀ p, c.locks p ↔ (s.pc t).locks p)
    (hheld : ∀ n, n ∈ c.held s.place ↔ n ∈ s.held t) (hok : c.Ok s.place s.bit) :
    (s.goto t c).Inv ramPages := by
  exact h.move rfl rfl (h.holder_same (fun _ => rfl) hlocks) (fun _ _ _ _ _ hi => hi) hok
    h.owned_ok (h.ownership.walk rfl rfl rfl rfl hheld)

section
omit [DecidableEq T]

theorem Inv.ne_bitmapError (h : s.Inv ramPages) (hmax : ramPages ≤ 16384) {i : Nat}
    (hi : i < (s.place p).bitCnt) : i ≠ bitmapError := by
  have := (h.layout.first_add_lt hmax p).2
  rw [bitmapError]
  omega

theorem assertFirst_of {start cnt : Nat} (j : Nat) (hrange : start + cnt ≤ (s.place p).bitCnt) :
    assertFirst (s.pool p).usedMap start cnt j = some () := by
  unfold assertFirst
  split
  · exact Bitmap.assertRange_of hrange
  · rfl

theorem test_of (p : PoolId) {k : Nat} (hk : k < (s.place p).bitCnt) :
    (s.pool p).usedMap.test (k % unsignedSize) = some (s.bit p k) := by
  have hlt := (s.pool p).usedMap.bitCnt_lt
  rw [Nat.mod_eq_of_lt (Nat.lt_trans hk hlt)]
  exact Bitmap.test_spec hk

theorem set_of (p : PoolId) {k : Nat} (hk : k < (s.place p).bitCnt) (v : Bool) :
    ∃ b, (s.pool p).usedMap.set (k % unsignedSize) v = some b ∧
      (s.pool p).usedMap.SetAt k v b := by
  have hlt := (s.pool p).usedMap.bitCnt_lt
  rw [Nat.mod_eq_of_lt (Nat.lt_trans hk hlt)]
  exact Bitmap.set_spec hk v

end

/-- The lock of one pool changes hands. -/
theorem Inv.holder_set (h : s.Inv ramPages) {holder : Option T}
    (hholder : ∀ u, holder = some u ↔ (update s.pc t c u).locks p)
    (hlocks : ∀ q, q ≠ p → (c.locks q ↔ (s.pc t).locks q)) (q : PoolId) (u : T) :
    ((s.setHolder p holder).pool q).holder = some u ↔ (update s.pc t c u).locks q := by
  by_cases hq : q = p
  · subst hq
    simpa [setHolder] using hholder u
  · have hsame : ((s.setHolder p holder).pool q).holder = (s.pool q).holder := by
      simp [setHolder, hq]
    rw [hsame, h.holder]
    by_cases hu : u = t
    · rw [hu, update_self, hlocks q hq]
    · rw [update_of_ne hu]

omit [DecidableEq T] in
theorem held_of (hpc : s.pc t = c) : s.held t = c.held s.place := by
  rw [held, hpc]

/-- A call acquires the lock. -/
theorem Inv.acquired (h : s.Inv ramPages) {flags : PallocFlags} {pageCnt : Nat}
    (hpc : s.pc t = .acquiring flags pageCnt) (hfree : (s.pool flags.pool).holder = none) :
    (s.acquired t flags pageCnt).Inv ramPages := by
  have hpos : 0 < pageCnt := by
    have hok := h.call_ok t
    rwa [hpc] at hok
  have hnobody : ∀ u, ¬(s.pc u).locks flags.pool := by
    intro u hlocks
    rw [← h.holder, hfree] at hlocks
    cases hlocks
  rw [PageAllocator.acquired]
  generalize hc : (if pageCnt ≤ (s.pool flags.pool).usedMap.bitCnt then
    PallocPc.scanning flags pageCnt 0 0 else .releasing flags pageCnt bitmapError) = c
  have hlocks : ∀ q, c.locks q ↔ flags.pool = q := by
    intro q
    rw [← hc]
    split <;> rfl
  have hheld : c.held s.place = ⟨0, 0⟩ := by
    rw [← hc]
    split
    · rfl
    · exact PallocPc.held_releasing_error _ _ _
  have hok : c.Ok s.place s.bit := by
    rw [← hc]
    split
    · next hle => exact ⟨hpos, by rw [Nat.zero_add]; exact hle, nofun⟩
    · exact fun hne => absurd rfl hne
  refine h.move (by simp) rfl (h.holder_set (fun u => ?_) fun q hq => ?_)
    (fun _ _ _ _ _ hi => by simpa using hi) (by simpa using hok) h.owned_ok
    (h.ownership.walk (by simp) rfl (by simp) rfl fun n => by rw [hheld, held_of hpc]; rfl)
  · by_cases hu : u = t
    · simp [hu, hlocks]
    · rw [update_of_ne hu]
      exact ⟨fun heq => absurd (Option.some.inj heq).symm hu, fun hl => absurd hl (hnobody u)⟩
  · rw [hlocks, hpc]
    exact ⟨fun heq => absurd heq.symm hq, nofun⟩

section
variable {flags : PallocFlags} (h : s.Inv ramPages) (hmax : ramPages ≤ 16384)
include h hmax

/-- **A bit is tested.**  The run goes on, is given up, or is complete. -/
theorem Inv.scan {pageCnt i j : Nat} (hpc : s.pc t = .scanning flags pageCnt i j) :
    ∃ s', s.scan t flags pageCnt i j = some s' ∧ s'.Inv ramPages := by
  obtain ⟨hj, hrange, hclear⟩ : (PallocPc.scanning flags pageCnt i j).Ok s.place s.bit :=
    hpc ▸ h.call_ok t
  have hcnt : (s.place flags.pool).bitCnt = (s.pool flags.pool).usedMap.bitCnt := rfl
  have hlocks : ∀ q, (s.pc t).locks q ↔ flags.pool = q := fun q => by rw [hpc]; rfl
  have hheld : s.held t = ⟨0, 0⟩ := held_of hpc
  rw [PageAllocator.scan, assertFirst_of j hrange, test_of flags.pool (show i + j < _ by omega)]
  simp only [some_bind]
  cases hbit : s.bit flags.pool (i + j) with
  | true =>
    refine ⟨_, rfl, h.walk (fun q => ?_) (fun n => ?_) ?_⟩
    · rw [hlocks]
      split <;> rfl
    · rw [hheld]
      split
      · rfl
      · rw [PallocPc.held_releasing_error]
    · split
      · exact ⟨by omega, by omega, nofun⟩
      · exact fun hne => absurd rfl hne
  | false =>
    have hclear' : ∀ k, k < j + 1 → s.bit flags.pool (i + k) = false := by
      intro k hk
      by_cases hkj : k = j
      · rw [hkj, hbit]
      · exact hclear k (by omega)
    simp only [Bool.false_eq_true, if_false]
    split
    · next hlt =>
      refine ⟨_, rfl, h.walk (fun q => ?_) (fun n => ?_) ⟨hlt, hrange, hclear'⟩⟩
      · rw [hlocks]
        rfl
      · rw [hheld]
        rfl
    · next hlast =>
      rw [if_pos (h.ne_bitmapError (p := flags.pool) hmax (by omega))]
      refine ⟨_, rfl, h.walk (fun q => ?_) (fun n => ?_) ⟨by omega, hrange, fun k _ hk => ?_⟩⟩
      · rw [hlocks]
        rfl
      · rw [hheld]
        simp [PallocPc.held, notMem_of_len]
      · exact hclear' k (by omega)

/-- **A bit is set.**  Nobody else sets bits of this pool meanwhile. -/
theorem Inv.flip {pageCnt pageIdx j : Nat} (hpc : s.pc t = .flipping flags pageCnt pageIdx j) :
    ∃ s', s.flip t flags pageCnt pageIdx j = some s' ∧ s'.Inv ramPages := by
  obtain ⟨hj, hrange, hclear⟩ : (PallocPc.flipping flags pageCnt pageIdx j).Ok s.place s.bit :=
    hpc ▸ h.call_ok t
  have hk : pageIdx + j < (s.place flags.pool).bitCnt := by omega
  obtain ⟨b, hcode, hset⟩ := set_of flags.pool hk true
  have hplace := place_setMap hset.bitCnt_eq
  have hbit := bit_setMap hset
  have hholder := holder_setMap s flags.pool b
  have hheld : s.held t = ⟨pgNo (s.place flags.pool).base + pageIdx, j⟩ := held_of hpc
  have hne : pageIdx ≠ bitmapError := h.ne_bitmapError (p := flags.pool) hmax (by omega)
  rw [PageAllocator.flip, assertFirst_of j hrange]
  simp only [some_bind, hcode]
  generalize hc : (if j + 1 < pageCnt then PallocPc.flipping flags pageCnt pageIdx (j + 1)
    else .releasing flags pageCnt pageIdx) = c
  have hlocks : ∀ q, c.locks q ↔ (s.pc t).locks q := by
    intro q
    rw [← hc, hpc]
    split <;> rfl
  have hheld' : c.held s.place = ⟨pgNo (s.place flags.pool).base + pageIdx, j + 1⟩ := by
    rw [← hc]
    split
    · rfl
    · rw [PallocPc.held, if_neg hne, show j + 1 = pageCnt by omega]
  have hok : c.Ok s.place (s.setMap flags.pool b).bit := by
    rw [← hc]
    split
    · next hlt =>
      refine ⟨hlt, hrange, fun k hjk hk => ?_⟩
      rw [hbit, if_neg (by omega)]
      exact hclear k (by omega) hk
    · exact fun _ => ⟨by omega, hrange⟩
  refine ⟨_, rfl, h.move hplace rfl (h.holder_same hholder hlocks) (fun u hu p hup i hi => ?_) hok
    h.owned_ok ?_⟩
  · -- the other calls have locked other pools
    have hp : p ≠ flags.pool := by
      rintro rfl
      have hholds : (s.pool flags.pool).holder = some t := by rw [h.holder, hpc]; rfl
      rw [← h.holder, hholds] at hup
      exact hu (Option.some.inj hup).symm
    rw [bit_goto, hbit, if_neg fun hpi => hp hpi.1]
    exact hi
  · refine h.ownership.setBit h.layout hk hplace rfl rfl hbit (fun n => ?_)
      (fun _ => hclear j (Nat.le_refl j) hj) nofun
    rw [hheld, hheld', page, mem_iff, mem_iff]
    simp only [true_and]
    omega

/-- **A call returns.**  Its caller owns the pages it has set, if there are any. -/
theorem Inv.release {pageCnt pageIdx : Nat} (hpc : s.pc t = .releasing flags pageCnt pageIdx)
    (hcode : s.release t flags pageCnt pageIdx = some s') : s'.Inv ramPages := by
  have hok : (PallocPc.releasing flags pageCnt pageIdx).Ok s.place s.bit := hpc ▸ h.call_ok t
  have hholds : (s.pool flags.pool).holder = some t := by rw [h.holder, hpc]; rfl
  have hbase : ((s.setHolder flags.pool none).pool flags.pool).base = (s.pool flags.pool).base := by
    simp [setHolder]
  have hholder : ∀ p u, ((s.setHolder flags.pool none).pool p).holder = some u ↔
      (update s.pc t .idle u).locks p := by
    refine h.holder_set (fun u => ⟨nofun, fun hl => ?_⟩) fun q hq => ?_
    · by_cases hu : u = t
      · simp [hu, PallocPc.locks] at hl
      · rw [update_of_ne hu, ← h.holder, hholds] at hl
        exact absurd (Option.some.inj hl).symm hu
    · rw [hpc]
      exact ⟨nofun, fun heq => absurd (Eq.symm heq) hq⟩
  rw [PageAllocator.release, assert_of hholds] at hcode
  simp only [some_bind, hbase] at hcode
  by_cases hne : pageIdx = bitmapError
  · rw [if_neg (not_not_intro hne), if_neg (not_not_intro rfl)] at hcode
    obtain ⟨-, -, hcode⟩ := of_bind hcode
    cases hcode
    subst hne
    refine h.move (by simp) rfl hholder (fun _ _ _ _ _ hi => by simpa using hi) trivial
      h.owned_ok (h.ownership.walk (by simp) rfl (by simp) rfl fun n => ?_)
    rw [held_of hpc, PallocPc.held_releasing_error]
    rfl
  · obtain ⟨hpos, hrange⟩ := hok hne
    obtain ⟨hfirst, hlast⟩ := h.layout.first_add_lt hmax flags.pool
    have haligned := h.layout.aligned flags.pool
    have hpages : ((s.pool flags.pool).base + pgsize * pageIdx) % unsignedSize
        = (pgNo (s.place flags.pool).base + pageIdx) * pgsize := by
      have hbase' : (s.place flags.pool).base = (s.pool flags.pool).base := rfl
      simp only [pgOfs, pgNo, pgsize, hbase', unsignedSize] at haligned hlast ⊢
      omega
    have hnz : (pgNo (s.place flags.pool).base + pageIdx) * pgsize ≠ 0 := by
      rw [pgsize]
      omega
    rw [if_pos hne, hpages, if_pos hnz] at hcode
    cases hcode
    refine h.move (by simp) rfl hholder (fun _ _ _ _ _ hi => by simpa using hi) trivial
      (fun g hg => ?_) ?_
    · rcases mem_append.mp hg with hg | hg
      · exact h.owned_ok g hg
      · rw [mem_singleton] at hg
        subst hg
        refine ⟨hpos, Nat.mul_mod_left _ _, ?_⟩
        simp only [Extent.Within, Grant.extent, pgNo_mul, PoolPlace.dataPages]
        omega
    · refine h.ownership.grant (by simp) rfl rfl (by simp) ?_
      rw [held_of hpc, PallocPc.held, if_neg hne, Grant.extent, pgNo_mul]

end

/-- **A bit is checked** and found set. -/
theorem Inv.check (h : s.Inv ramPages) {pageIdx pageCnt j : Nat}
    (hpc : s.pc t = .checking p pageIdx pageCnt j) :
    ∃ s', s.check t p pageIdx pageCnt j = some s' ∧ s'.Inv ramPages := by
  obtain ⟨hj, hrange⟩ : (PallocPc.checking p pageIdx pageCnt j).Ok s.place s.bit :=
    hpc ▸ h.call_ok t
  have hheld : s.held t = ⟨pgNo (s.place p).base + pageIdx, pageCnt⟩ := held_of hpc
  have hk : pageIdx + j < (s.place p).bitCnt := by omega
  have hbit : s.bit p (pageIdx + j) = true := by
    rw [h.ownership.used p _ hk]
    refine .inr ⟨t, ?_⟩
    rw [hheld, page, mem_iff]
    simp only
    omega
  rw [PageAllocator.check, assertFirst_of j hrange, test_of p hk, hbit]
  simp only [some_bind, assert_of]
  refine ⟨_, rfl, h.walk (fun q => ?_) (fun n => ?_) ?_⟩
  · rw [hpc]
    split <;> rfl
  · rw [held_of hpc]
    split
    · rfl
    · rfl
  · split
    · next hlt => exact ⟨hlt, hrange⟩
    · exact ⟨by omega, hrange⟩

/-- **A bit is cleared**, with or without the lock in somebody's hands. -/
theorem Inv.clear (h : s.Inv ramPages) {pageIdx pageCnt j : Nat}
    (hpc : s.pc t = .clearing p pageIdx pageCnt j) :
    ∃ s', s.clear t p pageIdx pageCnt j = some s' ∧ s'.Inv ramPages := by
  obtain ⟨hj, hrange⟩ : (PallocPc.clearing p pageIdx pageCnt j).Ok s.place s.bit :=
    hpc ▸ h.call_ok t
  have hk : pageIdx + j < (s.place p).bitCnt := by omega
  obtain ⟨b, hcode, hset⟩ := set_of p hk false
  have hplace := place_setMap hset.bitCnt_eq
  have hbit := bit_setMap hset
  have hheld : s.held t = ⟨pgNo (s.place p).base + (pageIdx + j), pageCnt - j⟩ := held_of hpc
  rw [PageAllocator.clear, assertFirst_of j hrange]
  simp only [some_bind, hcode]
  generalize hc : (if j + 1 < pageCnt then PallocPc.clearing p pageIdx pageCnt (j + 1)
    else .idle) = c
  have hlocks : ∀ q, c.locks q ↔ (s.pc t).locks q := by
    intro q
    rw [← hc, hpc]
    split <;> rfl
  have hheld' : ∀ n, n ∈ c.held s.place ↔ n ∈ s.held t ∧ n ≠ s.page p (pageIdx + j) := by
    intro n
    rw [hheld, page, ← hc, mem_iff, mem_iff]
    split
    · simp only [PallocPc.held]
      omega
    · simp only [PallocPc.held]
      omega
  refine ⟨_, rfl, h.move hplace rfl (h.holder_same (holder_setMap s p b) hlocks)
    (fun u _ q _ i hi => ?_) ?_ h.owned_ok ?_⟩
  · rw [bit_goto, hbit]
    split
    · rfl
    · exact hi
  · rw [← hc]
    split
    · next hlt => exact ⟨hlt, hrange⟩
    · trivial
  · refine h.ownership.setBit h.layout hk hplace rfl rfl hbit (fun n => ?_) nofun fun _ => ?_
    · rw [hheld']
      simp
    · rw [hheld, page, mem_iff]
      simp only
      omega

omit [DecidableEq T] in
/-- The code finds a page in the pool it is in. -/
theorem Inv.poolOf_eq (h : s.Inv ramPages) (hmax : ramPages ≤ 16384) {pages : Nat}
    (hpage : pgNo pages ∈ (s.place p).dataPages) : s.poolOf pages = some p := by
  have hmem : ∀ q, (s.pool q).pageFromPool pages = true ↔ pgNo pages ∈ (s.place q).dataPages := by
    intro q
    have hlast := (h.layout.first_add_lt hmax q).2
    have hmod : (pgNo (s.pool q).base + (s.pool q).usedMap.bitCnt) % unsignedSize
        = pgNo (s.pool q).base + (s.pool q).usedMap.bitCnt := by
      refine Nat.mod_eq_of_lt (Nat.lt_trans hlast ?_)
      rw [unsignedSize]
      omega
    simp [Pool.pageFromPool, hmod, mem_iff, place, Pool.place, PoolPlace.dataPages]
  have hunique : ∀ q, pgNo pages ∈ (s.place q).dataPages → q = p := by
    intro q hq
    rw [mem_iff] at hq hpage
    simp only [PoolPlace.dataPages] at hq hpage
    refine (h.layout.page_inj (i := pgNo pages - pgNo (s.place q).base)
      (j := pgNo pages - pgNo (s.place p).base) (by omega) (by omega) (by omega)).1
  rw [poolOf]
  cases p with
  | kernel => rw [if_pos ((hmem _).mpr hpage)]
  | user =>
    have hnot : ¬(s.pool .kernel).pageFromPool pages = true := fun hk =>
      absurd (hunique .kernel ((hmem _).mp hk)) (by decide)
    rw [if_neg hnot, if_pos ((hmem _).mpr hpage)]

/-- **A caller frees pages it owns.** -/
theorem Inv.free (h : s.Inv ramPages) (hmax : ramPages ≤ 16384) {pages pageCnt : Nat}
    (hidle : s.pc t = .idle) (haligned : pgOfs pages = 0)
    (howned : pages = 0 ∨ pageCnt = 0 ∨
      ∃ g ∈ s.owned, Extent.Within ⟨pgNo pages, pageCnt⟩ g.extent) :
    ∃ s', s.free t pages pageCnt = some s' ∧ s'.Inv ramPages := by
  rw [PageAllocator.free, assert_of haligned]
  simp only [some_bind]
  split
  · exact ⟨s, rfl, h⟩
  · next hsome =>
    obtain ⟨hpages, hcnt⟩ := not_or.mp hsome
    have hpos : 0 < pageCnt := Nat.pos_of_ne_zero hcnt
    obtain ⟨g, hg, hle, hle'⟩ := (howned.resolve_left hpages).resolve_left hcnt
    obtain ⟨hpool, hpool'⟩ := (h.owned_ok g hg).within
    simp only [Grant.extent, PoolPlace.dataPages] at hle hle' hpool hpool'
    have hpage : pgNo pages ∈ (s.place g.pool).dataPages := by
      rw [mem_iff]
      simp only [PoolPlace.dataPages]
      omega
    rw [h.poolOf_eq hmax hpage]
    have hbase : pgNo (s.place g.pool).base
        + (pgNo pages - pgNo (s.pool g.pool).base) = pgNo pages := by
      have : (s.place g.pool).base = (s.pool g.pool).base := rfl
      rw [this] at hpool ⊢
      omega
    refine ⟨_, rfl, h.move rfl rfl (h.holder_same (fun _ => rfl) fun q => ?_)
      (fun _ _ _ _ _ hi => hi) ⟨hpos, ?_⟩ (fun x hx => ?_) ?_⟩
    · rw [hidle]
      rfl
    · omega
    · obtain ⟨g', hg', hx⟩ := mem_flatMap.mp hx
      exact (h.owned_ok g' hg').minus hx
    · refine h.ownership.reclaim rfl rfl rfl rfl (by rw [held_of hidle]; rfl) ?_
        ⟨g, hg, hle, hle'⟩
      rw [PallocPc.held, hbase]

/-! ## Runs -/

/-- **Every step keeps the invariant.** -/
theorem Inv.step (h : s.Inv ramPages) (hmax : ramPages ≤ 16384) {e : PallocEvent T}
    (he : s.Enabled e) (hcode : s.apply e = some s') : s'.Inv ramPages := by
  have of_spec : ∀ {o}, o = some s' → (∃ s₁, o = some s₁ ∧ s₁.Inv ramPages) → s'.Inv ramPages := by
    rintro _ rfl ⟨s₁, hcode, h₁⟩
    exact Option.some.inj hcode ▸ h₁
  cases e with
  | get t flags pageCnt =>
    cases hcode
    split
    · exact h
    · next hpos =>
      refine h.walk (fun p => ?_) (fun n => ?_) (Nat.pos_of_ne_zero hpos)
      · rw [show s.pc t = .idle from he]
        rfl
      · rw [held_of he]
        rfl
  | free t pages pageCnt =>
    obtain ⟨hidle, haligned, howned⟩ := he
    exact of_spec hcode (h.free hmax hidle haligned howned)
  | go t =>
    cases hpc : s.pc t <;> simp only [apply, hpc] at hcode
    case idle => simp [Enabled, hpc] at he
    case acquiring =>
      simp only [Enabled, hpc] at he
      exact Option.some.inj hcode ▸ h.acquired hpc he
    case scanning => exact of_spec hcode (h.scan hmax hpc)
    case flipping => exact of_spec hcode (h.flip hmax hpc)
    case releasing => exact h.release hmax hpc hcode
    case checking => exact of_spec hcode (h.check hpc)
    case clearing => exact of_spec hcode (h.clear hpc)

theorem inv_reachable {ax : BitVec 16} {userPageLimit : Nat}
    (hs : (system ax userPageLimit).Reachable s) : s.Inv (initRamPages ax) := by
  obtain ⟨hmin, hmax⟩ := initRamPages_bounds ax
  refine TransitionSystem.Reachable.invariant ?_ ?_ hs
  · rintro s ⟨words, hinit, hidle, hnone⟩
    obtain ⟨hlayout, hfree, hclear⟩ := pallocInit_spec hmin hmax hinit
    have hheld : ∀ t n, n ∉ s.held t := fun t n => by
      rw [held_of (hidle t)]
      exact notMem_of_len rfl
    refine ⟨hlayout, fun p t => ?_, fun t => ?_, ?_, ?_, ?_, ?_, fun p i hi => ?_⟩
    · rw [hfree, hidle]
      exact ⟨nofun, nofun⟩
    · rw [hidle]
      trivial
    · rw [hnone]
      exact nofun
    · rw [hnone]
      exact .nil
    · rw [hnone]
      exact fun _ => nofun
    · exact fun t u _ n hn => absurd hn (hheld t n)
    · have hbit : s.bit p i = false := hclear p i hi
      rw [hbit]
      refine ⟨nofun, ?_⟩
      rintro (⟨g, hg, -⟩ | ⟨t, hn⟩)
      · rw [hnone] at hg
        cases hg
      · exact absurd hn (hheld t _)
  · rintro s e s' h ⟨he, hcode⟩
    exact h.step hmax he hcode

/-- **No page is owned twice.**  On every machine, with every limit for the user pool,
and in every interleaving of calls: the pools and their bitmaps are apart and in free
memory; the ranges owned by callers are apart, and in the data pages of the pool they were
asked from; the bits of their pages are set; and while no call is in progress, these are
the only bits set. -/
theorem no_page_owned_twice {ax : BitVec 16} {userPageLimit : Nat}
    (hs : (system ax userPageLimit).Reachable s) :
    ((poolPages s.place).Pairwise Extent.Apart ∧
      ∀ e ∈ poolPages s.place, e.Within (freeMemory (initRamPages ax))) ∧
    (s.owned.Pairwise (fun g g' => g.extent.Apart g'.extent) ∧
      ∀ g ∈ s.owned, g.extent.Within (s.place g.pool).dataPages) ∧
    (∀ g ∈ s.owned, ∀ i, s.page g.pool i ∈ g.extent → s.bit g.pool i = true) ∧
    ((∀ t, s.pc t = .idle) → ∀ p i, i < (s.place p).bitCnt →
      (s.bit p i = true ↔ ∃ g ∈ s.owned, s.page p i ∈ g.extent)) := by
  have h := inv_reachable hs
  refine ⟨⟨h.layout.apart, h.layout.within⟩,
    ⟨h.ownership.owned_apart, fun g hg => (h.owned_ok g hg).within⟩, fun g hg i hi => ?_,
    fun hidle p i hi => ?_⟩
  · have hlt : i < (s.place g.pool).bitCnt := by
      have hdata := (h.owned_ok g hg).within.mem hi
      rw [mem_iff, page] at hdata
      simp only [PoolPlace.dataPages] at hdata
      omega
    exact (h.ownership.used g.pool i hlt).mpr (.inl ⟨g, hg, hi⟩)
  · rw [h.ownership.used p i hi]
    refine ⟨?_, .inl⟩
    rintro (hg | ⟨t, hn⟩)
    · exact hg
    · rw [held_of (hidle t)] at hn
      exact absurd hn (notMem_of_len rfl)

theorem init_of_pallocInit {ax : BitVec 16} {userPageLimit : Nat}
    {words : PoolId → Nat → BitVec 32} {pool : PoolId → Pool T}
    (hinit : pallocInit (initRamPages ax) userPageLimit words = some pool) :
    (system ax userPageLimit).init ⟨pool, fun _ => .idle, []⟩ :=
  ⟨words, hinit, fun _ => rfl, rfl⟩

/-- Six pages above the first MB are enough to start. -/
theorem starts_with_six_pages :
    (pallocInit (T := Bool) (initRamPages 24#16) 100 fun _ _ => 0#32).isSome = true := by
  decide +kernel

/-- A page is freed while another call scans: the scan still finds its bit set, and takes
the next page. -/
theorem no_page_owned_twice_racing : ∃ s : PageAllocator Bool, (system 24#16 100).Reachable s ∧
    s.owned = [⟨.kernel, 0xc0102000, 1⟩] ∧ s.bit .kernel 0 = false ∧ s.bit .kernel 1 = true := by
  let pool : PoolId → Pool Bool := Option.get _ starts_with_six_pages
  have hinit : pallocInit (initRamPages 24#16) 100 (fun _ _ => 0#32) = some pool :=
    (Option.some_get starts_with_six_pages).symm
  let flags : PallocFlags := ⟨false, false⟩
  let events : List (PallocEvent Bool) := [.get true flags 1, .go true, .go true, .go true,
    .go true, .free false 0xc0101000 1, .get true flags 1, .go true, .go false, .go true, .go false,
    .go true, .go true, .go true]
  let state := after (orSelf apply) ⟨pool, fun _ => .idle, []⟩ events
  have hrun : (system 24#16 100).Run 14 state fun n => events.getD n (.go true) :=
    TransitionSystem.Run.of_checked_labels (init_of_pallocInit hinit) events _ (by decide +kernel)
  have hreachable : (system 24#16 100).Reachable (state 14) := hrun.reachable (Nat.le_refl 14)
  have howned : (state 14).owned = [⟨.kernel, 0xc0102000, 1⟩] := by decide +kernel
  have hidle : ∀ t, (state 14).pc t = .idle := by decide +kernel
  have hcnt : ((state 14).place .kernel).bitCnt = 2 := by decide +kernel
  have hpage : (state 14).page .kernel 0 = 0xc0101 := by decide +kernel
  clear_value state
  obtain ⟨-, -, -, hused⟩ := no_page_owned_twice hreachable
  have hpage' : (state 14).page .kernel 1 = 0xc0102 := congrArg (· + 1) hpage
  have h0 := hused hidle .kernel 0 (by omega)
  have h1 := hused hidle .kernel 1 (by omega)
  rw [howned, hpage] at h0
  rw [howned, hpage'] at h1
  refine ⟨state 14, hreachable, howned, ?_, h1.mpr (by decide)⟩
  rw [← Bool.not_eq_true, h0]
  decide

end PageAllocator
end Pintos
