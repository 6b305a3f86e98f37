import Pintos.Basic
import Pintos.BinaryHeap
import Pintos.Memory

/-!
# Sorting an array

`sort` and `qsort` of the standard library sort an array in place by heap sort.  The
elements have 1-based indices; `do_compare` and `do_swap` go to an element by its index and
here refuse an index at which the array has no element.

`heapify` restores the heap below one element (`heapify_spec`), and the two loops of `sort`
build the heap and take it down again.  **The array is sorted**, and nothing around it is
touched (`sort_sorts`), as long as the indices of the children, which are twice as large,
do not wrap around (`sort_wraps`).
-/

namespace Pintos.HeapSort
open List
open Function (update update_of_ne update_self)
open BinaryHeap

/-- What an element of the array holds. -/
abbrev Element (size : Nat) := { bytes : List (BitVec 8) // bytes.length = size }

/-- The arguments of `sort`, which it hands on to the functions it calls. -/
structure Job (Aux : Type) where
  array : Nat
  cnt : Nat
  size : Nat
  compare : Element size → Element size → Aux → Int
  aux : Aux

variable {Aux : Type}

namespace Job

/-- `array + (idx - 1) * size`. -/
def element (s : Job Aux) (idx : Nat) : Nat :=
  (s.array + decrement idx * s.size) % unsignedSize

/-- The index belongs to an element of the array. -/
def Index (s : Job Aux) (idx : Nat) : Prop :=
  1 ≤ idx ∧ idx ≤ s.cnt

instance (s : Job Aux) (idx : Nat) : Decidable (s.Index idx) :=
  inferInstanceAs (Decidable (_ ∧ _))

/-- The round of the loop of `do_swap` for one byte. -/
def swapByte (a b : Nat) (m : Memory) (i : Nat) : Memory :=
  let t := m (a + i)
  let m := update m (a + i) (m (b + i))
  update m (b + i) t

/-- `do_swap`. -/
def doSwap (s : Job Aux) (m : Memory) (aIdx bIdx : Nat) : Option Memory := do
  assert (s.Index aIdx)
  assert (s.Index bIdx)
  some ((List.range s.size).foldl (swapByte (s.element aIdx) (s.element bIdx)) m)

/-- The bytes that `compare` finds at a pointer. -/
def read (s : Job Aux) (m : Memory) (a : Nat) : Element s.size :=
  ⟨m.load a s.size, m.length_load a s.size⟩

/-- `do_compare`. -/
def doCompare (s : Job Aux) (m : Memory) (aIdx bIdx : Nat) : Option Int := do
  assert (s.Index aIdx)
  assert (s.Index bIdx)
  some (s.compare (s.read m (s.element aIdx)) (s.read m (s.element bIdx)) s.aux)

/-- The test of `heapify` on one of the children: `max` or, if that is greater, the child. -/
def larger (s : Job Aux) (m : Memory) (cnt child max : Nat) : Option Nat :=
  if child ≤ cnt then do
    let c ← s.doCompare m child max
    some (if 0 < c then child else max)
  else some max

/-- The index of the largest element among the one at `i` and its children. -/
def largest (s : Job Aux) (m : Memory) (i cnt : Nat) : Option Nat := do
  let max ← s.larger m cnt (2 * i % unsignedSize) i
  s.larger m cnt ((2 * i + 1) % unsignedSize) max

/-- `heapify`.  The loop has no end of its own; the first argument bounds the rounds. -/
def heapify (s : Job Aux) : Nat → Memory → Nat → Nat → Option Memory
  | 0, _, _, _ => none
  | rounds + 1, m, i, cnt => do
    let max ← s.largest m i cnt
    if max = i then some m
    else do
      let m ← s.doSwap m i max
      s.heapify rounds m max cnt

/-- The loop of `sort` that builds the heap. -/
def build (s : Job Aux) : Nat → Memory → Option Memory
  | 0, m => some m
  | i + 1, m => do
    let m ← s.heapify s.cnt m (i + 1) s.cnt
    s.build i m

/-- The loop of `sort` that takes the heap down. -/
def takeDown (s : Job Aux) : Nat → Memory → Option Memory
  | 0, m => some m
  | 1, m => some m
  | i + 2, m => do
    let m ← s.doSwap m 1 (i + 2)
    let m ← s.heapify s.cnt m 1 (i + 1)
    s.takeDown (i + 1) m

end Job

/-- `sort`. -/
def sort (m : Memory) (array cnt size : Nat) (compare : Element size → Element size → Aux → Int)
    (aux : Aux) : Option Memory := do
  assert (array ≠ 0 ∨ cnt = 0)
  assert (size > 0)
  let s : Job Aux := ⟨array, cnt, size, compare, aux⟩
  let m ← s.build (cnt / 2) m
  s.takeDown cnt m

/-- `compare_thunk`: the auxiliary data is the comparison. -/
def compareThunk {size : Nat} (a b : Element size) (aux : Element size → Element size → Int) :
    Int :=
  aux a b

/-- `qsort`. -/
def qsort (m : Memory) (array cnt size : Nat) (compare : Element size → Element size → Int) :
    Option Memory :=
  sort m array cnt size compareThunk compare

/-! ## The elements -/

/-- **A comparison in the manner of `strcmp`** that is a total preorder: the sign turns with
the arguments, and what is not greater is transitive. -/
structure TotalPreorder {α : Type} (cmp : α → α → Int) : Prop where
  swap : ∀ x y, cmp x y < 0 ↔ 0 < cmp y x
  trans : ∀ x y z, cmp x y ≤ 0 → cmp y z ≤ 0 → cmp x z ≤ 0

theorem TotalPreorder.refl {α : Type} {cmp : α → α → Int} (h : TotalPreorder cmp) (x : α) :
    cmp x x ≤ 0 := by
  have := h.swap x x
  omega

theorem TotalPreorder.total {α : Type} {cmp : α → α → Int} (h : TotalPreorder cmp) {x y : α}
    (hxy : 0 < cmp x y) : cmp y x ≤ 0 :=
  Int.le_of_lt ((h.swap y x).mpr hxy)

/-- The elements of an array. -/
def elements (m : Memory) (array cnt size : Nat) : List (Element size) :=
  (List.range cnt).map fun k => ⟨m.load (array + k * size) size, m.length_load _ size⟩

/-- **The array has been sorted**: its elements are those it had, none is greater than a later
one, and the memory around it is as it was. -/
structure Sorted {size : Nat} (m m' : Memory) (array cnt : Nat)
    (cmp : Element size → Element size → Int) : Prop where
  perm : (elements m' array cnt size).Perm (elements m array cnt size)
  ordered : (elements m' array cnt size).Pairwise fun x y => cmp x y ≤ 0
  around : ∀ x, x ∉ (⟨array, cnt * size⟩ : Extent) → m' x = m x

namespace Job
variable {s : Job Aux} {m : Memory} {i j k : Nat}

/-- The array is in memory, and is not too long for the indices of children. -/
structure Fits (s : Job Aux) : Prop where
  memory : s.array + s.cnt * s.size ≤ unsignedSize
  size : 0 < s.size
  cnt : s.cnt < 2147483648

/-- Not greater. -/
def Le (s : Job Aux) (x y : Element s.size) : Prop :=
  s.compare x y s.aux ≤ 0

/-- The bytes of the array. -/
def extent (s : Job Aux) : Extent :=
  ⟨s.array, s.cnt * s.size⟩

/-- The element at a 1-based index; zeros where there is none. -/
def get (s : Job Aux) (m : Memory) (k : Nat) : Element s.size :=
  if s.Index k then s.read m (s.array + (k - 1) * s.size)
  else ⟨List.replicate s.size 0, length_replicate⟩

/-- An element lies in the array. -/
theorem element_le (hk : s.Index k) : (k - 1) * s.size + s.size ≤ s.cnt * s.size := by
  have hle : k - 1 + 1 ≤ s.cnt := Nat.sub_add_cancel hk.1 ▸ hk.2
  have h := Nat.mul_le_mul_right s.size hle
  rwa [Nat.succ_mul] at h

/-- Elements at different indices are apart. -/
theorem element_apart (hi : 1 ≤ i) (hlt : i < j) :
    (i - 1) * s.size + s.size ≤ (j - 1) * s.size := by
  have h : (i - 1 + 1) * s.size ≤ (j - 1) * s.size := Nat.mul_le_mul_right s.size (by omega)
  rwa [Nat.succ_mul] at h

theorem element_eq (h : s.Fits) (hk : s.Index k) :
    s.element k = s.array + (k - 1) * s.size := by
  have hle := element_le hk
  have hmemory := h.memory
  have hsize := h.size
  rw [element, decrement_eq hk.1, Nat.mod_eq_of_lt (by omega)]

theorem doCompare_eq (h : s.Fits) (hi : s.Index i) (hj : s.Index j) :
    s.doCompare m i j = some (s.compare (s.get m i) (s.get m j) s.aux) := by
  rw [doCompare, assert_of hi, assert_of hj, element_eq h hi, element_eq h hj, get, if_pos hi,
    get, if_pos hj]
  rfl

/-! ## Swapping -/

/-- **The loop of `do_swap`** exchanges two runs of bytes that are apart. -/
theorem swapBytes_spec {a b n : Nat} (h : a + n ≤ b ∨ b + n ≤ a) :
    (∀ k, k < n → (List.range n).foldl (swapByte a b) m (a + k) = m (b + k)) ∧
      (∀ k, k < n → (List.range n).foldl (swapByte a b) m (b + k) = m (a + k)) ∧
      ∀ x, (x < a ∨ a + n ≤ x) → (x < b ∨ b + n ≤ x) →
        (List.range n).foldl (swapByte a b) m x = m x := by
  induction n with
  | zero => exact ⟨fun _ hk => (nomatch hk), fun _ hk => (nomatch hk), fun _ _ _ => rfl⟩
  | succ n ih =>
    obtain ⟨ha, hb, hout⟩ := ih (by omega)
    rw [range_succ, foldl_append, foldl_cons, foldl_nil]
    generalize hm' : (List.range n).foldl (swapByte a b) m = m' at ha hb hout
    refine ⟨fun k hk => ?_, fun k hk => ?_, fun x hxa hxb => ?_⟩
    · rw [swapByte, update_of_ne (by omega)]
      rcases Nat.lt_succ_iff_lt_or_eq.mp hk with hlt | rfl
      · rw [update_of_ne (by omega), ha k hlt]
      · rw [update_self, hout _ (by omega) (by omega)]
    · rcases Nat.lt_succ_iff_lt_or_eq.mp hk with hlt | rfl
      · rw [swapByte, update_of_ne (by omega), update_of_ne (by omega), hb k hlt]
      · rw [swapByte, update_self, hout _ (by omega) (by omega)]
    · rw [swapByte, update_of_ne (by omega), update_of_ne (by omega), hout x (by omega) (by omega)]

/-- An element that no byte has changed of. -/
theorem get_congr {m' : Memory} {k k' : Nat} (hk : s.Index k) (hk' : s.Index k')
    (h : ∀ j, j < s.size → m' (s.array + (k - 1) * s.size + j) =
      m (s.array + (k' - 1) * s.size + j)) : s.get m' k = s.get m k' := by
  rw [get, if_pos hk, get, if_pos hk', read, read, Subtype.mk.injEq]
  exact map_congr_left fun j hj => h j (mem_range.mp hj)

/-- **`do_swap` exchanges two elements.** -/
theorem doSwap_spec (h : s.Fits) (hi : s.Index i) (hj : s.Index j) (hne : i ≠ j) :
    ∃ m', s.doSwap m i j = some m' ∧ s.get m' = s.get m ∘ Equiv.swap i j ∧
      ∀ x, x ∉ s.extent → m' x = m x := by
  have hle := element_le hi
  have hle' := element_le hj
  have hapart : s.array + (i - 1) * s.size + s.size ≤ s.array + (j - 1) * s.size ∨
      s.array + (j - 1) * s.size + s.size ≤ s.array + (i - 1) * s.size := by
    rcases Nat.lt_or_gt_of_ne hne with hlt | hlt
    · have := element_apart (s := s) hi.1 hlt
      omega
    · have := element_apart (s := s) hj.1 hlt
      omega
  obtain ⟨hfirst, hsecond, hother⟩ := swapBytes_spec (m := m) hapart
  refine ⟨_, by rw [doSwap, assert_of hi, assert_of hj, element_eq h hi, element_eq h hj]; rfl,
    funext fun k => ?_, fun x hx => hother x ?_ ?_⟩
  · by_cases hk : s.Index k
    · change _ = s.get m (Equiv.swap i j k)
      by_cases hki : k = i
      · rw [hki, Equiv.swap_apply_left]
        exact get_congr hi hj hfirst
      by_cases hkj : k = j
      · rw [hkj, Equiv.swap_apply_right]
        exact get_congr hj hi hsecond
      · rw [Equiv.swap_apply_of_ne_of_ne hki hkj]
        refine get_congr hk hk fun b hb => hother _ ?_ ?_
        · rcases Nat.lt_or_gt_of_ne hki with hlt | hlt
          · have := element_apart (s := s) hk.1 hlt
            omega
          · have := element_apart (s := s) hi.1 hlt
            omega
        · rcases Nat.lt_or_gt_of_ne hkj with hlt | hlt
          · have := element_apart (s := s) hk.1 hlt
            omega
          · have := element_apart (s := s) hj.1 hlt
            omega
    · have hki : k ≠ i := fun heq => hk (heq ▸ hi)
      have hkj : k ≠ j := fun heq => hk (heq ▸ hj)
      rw [Function.comp_apply, Equiv.swap_apply_of_ne_of_ne hki hkj, get, if_neg hk, get, if_neg hk]
  all_goals
    have hx' : ¬(s.array ≤ x ∧ x < s.array + s.cnt * s.size) := hx
    omega

/-! ## Restoring the heap -/

section Heapify
variable (h : s.Fits) (hle : TotalPreorder fun x y => s.compare x y s.aux)
include h hle

/-- One test: what comes out is one of the two, and not less than either. -/
theorem larger_spec {cnt child max : Nat} (hcnt : cnt ≤ s.cnt) (hchild : 1 ≤ child)
    (hmax : s.Index max) :
    ∃ r, s.larger m cnt child max = some r ∧ (r = max ∨ r = child ∧ child ≤ cnt) ∧
      s.Le (s.get m max) (s.get m r) ∧ (child ≤ cnt → s.Le (s.get m child) (s.get m r)) := by
  by_cases hc : child ≤ cnt
  · have hindex : s.Index child := ⟨hchild, Nat.le_trans hc hcnt⟩
    rw [larger, if_pos hc, doCompare_eq h hindex hmax]
    by_cases hgt : 0 < s.compare (s.get m child) (s.get m max) s.aux
    · exact ⟨child, by simp [hgt], .inr ⟨rfl, hc⟩, hle.total hgt, fun _ => hle.refl _⟩
    · exact ⟨max, by simp [hgt], .inl rfl, hle.refl _, fun _ => Int.not_lt.mp hgt⟩
  · exact ⟨max, if_neg hc, .inl rfl, hle.refl _, fun hc' => absurd hc' hc⟩

/-- The largest is the element itself or a child, and not less than any of them. -/
theorem largest_spec {cnt : Nat} (hcnt : cnt ≤ s.cnt) (hi : s.Index i) :
    ∃ max, s.largest m i cnt = some max ∧ (max = i ∨ max / 2 = i ∧ max ≤ cnt) ∧
      s.Le (s.get m i) (s.get m max) ∧
      ∀ c, c ≤ cnt → c / 2 = i → s.Le (s.get m c) (s.get m max) := by
  have hlong := h.cnt
  have hi1 := hi.1
  have hi2 := hi.2
  have hleft : 2 * i % unsignedSize = 2 * i := Nat.mod_eq_of_lt (by unfold unsignedSize; omega)
  have hright : (2 * i + 1) % unsignedSize = 2 * i + 1 :=
    Nat.mod_eq_of_lt (by unfold unsignedSize; omega)
  obtain ⟨r, hr, hcase, hge, hgel⟩ := larger_spec (m := m) h hle hcnt (by omega : 1 ≤ 2 * i) hi
  have hindex : s.Index r := by
    rcases hcase with rfl | ⟨rfl, hrc⟩
    · exact hi
    · exact ⟨by omega, by omega⟩
  obtain ⟨r', hr', hcase', hge', hger⟩ :=
    larger_spec (m := m) h hle hcnt (by omega : 1 ≤ 2 * i + 1) hindex
  refine ⟨r', by rw [largest, hleft, hright, hr]; exact hr', ?_,
    hle.trans _ _ _ hge hge', fun c hc hci => ?_⟩
  · omega
  · rcases (by omega : c = 2 * i ∨ c = 2 * i + 1) with rfl | rfl
    · exact hle.trans _ _ _ (hgel hc) hge'
    · exact hger hc

/-- **`heapify` restores the heap.** -/
theorem heapify_spec (rounds : Nat) {lo cnt : Nat} (hcnt : cnt ≤ s.cnt) (hlo : 1 ≤ lo) (hi : lo ≤ i)
    (hic : i ≤ cnt) (hrounds : cnt < i + rounds)
    (hheap : HeapExcept s.Le lo cnt i (s.get m)) :
    ∃ m', s.heapify rounds m i cnt = some m' ∧ HeapFrom s.Le lo cnt (s.get m') ∧
      Rearranged lo cnt (s.get m) (s.get m') ∧ ∀ x, x ∉ s.extent → m' x = m x := by
  -- the index grows in every round
  induction rounds generalizing m i with
  | zero => omega
  | succ rounds ih =>
    have hindex : s.Index i := ⟨by omega, by omega⟩
    obtain ⟨max, hmax, hcase, hge, hall⟩ := largest_spec (m := m) h hle hcnt hindex
    rw [heapify, hmax, some_bind]
    by_cases hmi : max = i
    · rw [if_pos hmi]
      rw [hmi] at hall
      exact ⟨m, rfl, hheap.done hall, Rearranged.refl _ _ _, fun _ _ => rfl⟩
    · rw [if_neg hmi]
      obtain ⟨hchild, hmc⟩ := hcase.resolve_left hmi
      obtain ⟨m₁, hswap, hget, hout⟩ :=
        doSwap_spec (m := m) h hindex ⟨by omega, by omega⟩ (Ne.symm hmi)
      have hsift := hheap.sift (by omega) hi hchild hmc hge hall
      rw [← hget] at hsift
      obtain ⟨m₂, hrest, hheap₂, hmoved, hout₂⟩ :=
        ih (by omega) (by omega) (by omega) hsift
      refine ⟨m₂, by rw [hswap]; exact hrest, hheap₂, ?_, fun x hx => ?_⟩
      · refine Rearranged.trans ?_ hmoved
        rw [hget]
        exact Rearranged.swap _ ⟨hi, hic⟩ ⟨by omega, hmc⟩
      · rw [hout₂ x hx, hout x hx]

/-! ## The two loops -/

/-- **The first loop builds a heap.** -/
theorem build_spec (hi : i ≤ s.cnt / 2) (hheap : HeapFrom s.Le (i + 1) s.cnt (s.get m)) :
    ∃ m', s.build i m = some m' ∧ HeapFrom s.Le 1 s.cnt (s.get m') ∧
      Rearranged 1 s.cnt (s.get m) (s.get m') ∧ ∀ x, x ∉ s.extent → m' x = m x := by
  induction i generalizing m with
  | zero => exact ⟨m, rfl, hheap, Rearranged.refl _ _ _, fun _ _ => rfl⟩
  | succ i ih =>
    obtain ⟨m₁, hround, hheap₁, hmoved, hout⟩ := heapify_spec h hle s.cnt
      (Nat.le_refl s.cnt) (by omega) (Nat.le_refl (i + 1)) (by omega) (by omega)
      (hheap.except (by omega))
    obtain ⟨m₂, hrest, hheap₂, hmoved₂, hout₂⟩ := ih (by omega) hheap₁
    refine ⟨m₂, by rw [build, hround]; exact hrest, hheap₂,
      (hmoved.mono (by omega) (Nat.le_refl _)).trans hmoved₂, fun x hx => ?_⟩
    rw [hout₂ x hx, hout x hx]

/-- **The second loop takes the heap down**, and leaves the elements in order. -/
theorem takeDown_spec (hi : i ≤ s.cnt) (hsorting : Sorting s.Le i s.cnt (s.get m)) :
    ∃ m', s.takeDown i m = some m' ∧
      (∀ j k, 1 ≤ j → j < k → k ≤ s.cnt → s.Le (s.get m' j) (s.get m' k)) ∧
      Rearranged 1 s.cnt (s.get m) (s.get m') ∧ ∀ x, x ∉ s.extent → m' x = m x := by
  induction i generalizing m with
  | zero => exact ⟨m, rfl, hsorting.pairwise (by omega), Rearranged.refl _ _ _, fun _ _ => rfl⟩
  | succ i ih =>
    rcases Nat.eq_zero_or_pos i with rfl | hpos
    · exact ⟨m, rfl, hsorting.pairwise (by omega), Rearranged.refl _ _ _, fun _ _ => rfl⟩
    · obtain ⟨i, rfl⟩ := Nat.exists_eq_succ_of_ne_zero (Nat.ne_of_gt hpos)
      obtain ⟨m₁, hswap, hget, hout⟩ := doSwap_spec (i := 1) (j := i + 2) (m := m) h
        ⟨by omega, by omega⟩ ⟨by omega, by omega⟩ (by omega)
      have hpop := hsorting.heap.pop (by omega)
      rw [← hget] at hpop
      obtain ⟨m₂, hround, hheap₂, hmoved, hout₂⟩ := heapify_spec h hle s.cnt
        (by omega) (by omega) (Nat.le_refl 1) (by omega) (by omega) hpop
      have hmoved' := hmoved
      rw [hget] at hmoved'
      have hsorting' := hsorting.step (by omega) hle.refl hle.trans hheap₂ hmoved'
      obtain ⟨m₃, hrest, hordered, hmoved₃, hout₃⟩ := ih (by omega) hsorting'
      refine ⟨m₃, ?_, hordered, Rearranged.trans ?_ hmoved₃, fun x hx => ?_⟩
      · rw [takeDown, hswap, some_bind, hround]
        exact hrest
      · refine Rearranged.trans ?_ (hmoved'.mono (Nat.le_refl 1) (by omega))
        exact Rearranged.swap _ ⟨by omega, by omega⟩ ⟨by omega, hi⟩
      · rw [hout₃ x hx, hout₂ x hx, hout x hx]

end Heapify

/-- The elements of the array, by their indices. -/
theorem elements_eq (s : Job Aux) (m : Memory) :
    elements m s.array s.cnt s.size = (List.range s.cnt).map fun k => s.get m (k + 1) := by
  refine map_congr_left fun k hk => ?_
  rw [mem_range] at hk
  rw [get, if_pos ⟨by omega, by omega⟩]
  rfl

end Job

/-- **`sort` sorts**, and goes to no element that the array does not have. -/
theorem sort_spec {m : Memory} {array cnt size : Nat}
    (compare : Element size → Element size → Aux → Int) (aux : Aux)
    (hmemory : array + cnt * size ≤ unsignedSize) (hnull : array ≠ 0 ∨ cnt = 0)
    (hsize : 0 < size) (hcnt : cnt < 2147483648)
    (hle : TotalPreorder fun x y => compare x y aux) :
    ∃ m', sort m array cnt size compare aux = some m' ∧
      Sorted m m' array cnt fun x y => compare x y aux := by
  let s : Job Aux := ⟨array, cnt, size, compare, aux⟩
  have h : s.Fits := ⟨hmemory, hsize, hcnt⟩
  have hleaves : HeapFrom s.Le (cnt / 2 + 1) cnt (s.get m) := fun c hc hlo => by omega
  obtain ⟨m₁, hbuild, hheap, hmoved, hout⟩ := Job.build_spec h hle (Nat.le_refl _) hleaves
  have hsorting : Sorting s.Le cnt cnt (s.get m₁) :=
    ⟨hheap, fun j k hj hjk hk => by omega, fun j k _ _ hk hk' => by omega⟩
  obtain ⟨m₂, htake, hordered, hmoved₂, hout₂⟩ :=
    Job.takeDown_spec h hle (Nat.le_refl _) hsorting
  refine ⟨m₂, ?_, ?_, ?_, fun x hx => ?_⟩
  · rw [sort, assert_of hnull, assert_of hsize]
    change (s.build (cnt / 2) m >>= s.takeDown cnt) = some m₂
    rw [hbuild]
    exact htake
  · rw [s.elements_eq m₂, s.elements_eq m]
    exact (hmoved.trans hmoved₂).perm
  · rw [s.elements_eq m₂, pairwise_map]
    refine pairwise_lt_range.imp_of_mem fun {j k} _ hk hjk => ?_
    rw [mem_range] at hk
    exact hordered (j + 1) (k + 1) (by omega) (by omega) hk
  · rw [hout₂ x hx, hout x hx]

/-- **`sort` and `qsort` sort** every array of fewer than 2 to the 31 elements, and go to no
element that the array does not have. -/
theorem sort_sorts (m : Memory) {array cnt size : Nat}
    (hmemory : array + cnt * size ≤ unsignedSize) (hnull : array ≠ 0 ∨ cnt = 0)
    (hsize : 0 < size) (hcnt : cnt < 2147483648) :
    (∀ (Aux : Type) (compare : Element size → Element size → Aux → Int) (aux : Aux),
      TotalPreorder (fun x y => compare x y aux) →
        ∃ m', sort m array cnt size compare aux = some m' ∧
          Sorted m m' array cnt fun x y => compare x y aux) ∧
      ∀ compare : Element size → Element size → Int, TotalPreorder compare →
        ∃ m', qsort m array cnt size compare = some m' ∧ Sorted m m' array cnt compare :=
  ⟨fun _ compare aux hle => sort_spec compare aux hmemory hnull hsize hcnt hle,
    fun compare hle => sort_spec compareThunk compare hmemory hnull hsize hcnt hle⟩

/-- The comparison of bytes. -/
def compareBytes (a b : Element 1) : Int :=
  ((a.val.headD 0).toNat : Int) - (b.val.headD 0).toNat

theorem totalPreorder_compareBytes : TotalPreorder compareBytes := by
  constructor
  · intro x y
    unfold compareBytes
    omega
  · intro x y z
    unfold compareBytes
    omega

/-- Three bytes are sorted. -/
theorem sort_sorts_three :
    (4096 + 3 * 1 ≤ unsignedSize ∧ TotalPreorder compareBytes) ∧
      ∃ m', qsort (fun x => BitVec.ofNat 8 (4100 - x)) 4096 3 1 compareBytes = some m' ∧
        Sorted (fun x => BitVec.ofNat 8 (4100 - x)) m' 4096 3 compareBytes :=
  ⟨⟨by decide, totalPreorder_compareBytes⟩,
    (sort_sorts (fun x => BitVec.ofNat 8 (4100 - x)) (by decide) (by decide) (by decide)
      (by decide)).2 compareBytes totalPreorder_compareBytes⟩

/-- **An array of 2 to the 31 bytes, the last one the greatest.**  It is swapped to the middle,
and the bytes there become the element with the last index; the index of its left child wraps
around to 0, where the array has no element. -/
theorem sort_wraps :
    (4096 + 2147483648 * 1 ≤ unsignedSize ∧ TotalPreorder compareBytes) ∧
      2 * 2147483648 % unsignedSize = 0 ∧
      qsort (fun x => if x = 4096 + 2147483647 then 1 else 0) 4096 2147483648 1 compareBytes =
        none :=
  ⟨⟨by decide, totalPreorder_compareBytes⟩, by decide, by decide +kernel⟩

end Pintos.HeapSort
