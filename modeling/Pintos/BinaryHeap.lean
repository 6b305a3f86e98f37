import Mathlib.Data.List.Nodup
import Mathlib.Data.List.Perm.Subperm
import Mathlib.Logic.Equiv.Basic
import Mathlib.Order.Basic

/-!
# Binary heaps

A binary heap whose nodes have the numbers from 1 on: the parent of the node `c` is `c / 2`.
What the nodes hold is given by a function, and the first `n` nodes count.

A heap is built and repaired by **sifting down**: one node may be less than its children
(`HeapExcept`); it is swapped with the greater of them until it is not (`HeapExcept.sift`,
`HeapExcept.done`).  The greatest node is then the first (`HeapFrom.le_root`).  What the
nodes hold is only ever moved around (`Rearranged`).
-/

namespace Pintos.BinaryHeap
variable {α : Type*}

/-! ## Moving around -/

/-- The same elements, in another order, from `lo` to `hi`. -/
def Rearranged (lo hi : Nat) (a b : Nat → α) : Prop :=
  ∃ σ : Equiv.Perm Nat, (∀ k, k < lo ∨ hi < k → σ k = k) ∧ b = a ∘ σ

namespace Rearranged
variable {lo hi lo' hi' k i j : Nat} {a b c : Nat → α}

theorem refl (lo hi : Nat) (a : Nat → α) : Rearranged lo hi a a :=
  ⟨Equiv.refl Nat, fun _ _ => rfl, rfl⟩

theorem trans (h : Rearranged lo hi a b) (h' : Rearranged lo hi b c) : Rearranged lo hi a c := by
  obtain ⟨σ, hσ, rfl⟩ := h
  obtain ⟨τ, hτ, rfl⟩ := h'
  refine ⟨τ.trans σ, fun k hk => ?_, rfl⟩
  rw [Equiv.trans_apply, hτ k hk, hσ k hk]

theorem mono (h : Rearranged lo hi a b) (hlo : lo' ≤ lo) (hhi : hi ≤ hi') :
    Rearranged lo' hi' a b := by
  obtain ⟨σ, hσ, hb⟩ := h
  exact ⟨σ, fun k hk => hσ k (hk.imp (Nat.lt_of_lt_of_le · hlo) (Nat.lt_of_le_of_lt hhi)), hb⟩

theorem swap (a : Nat → α) (h : lo ≤ i ∧ i ≤ hi) (h' : lo ≤ j ∧ j ≤ hi) :
    Rearranged lo hi a (a ∘ Equiv.swap i j) :=
  ⟨Equiv.swap i j, fun k hk => Equiv.swap_apply_of_ne_of_ne (by omega) (by omega), rfl⟩

theorem eq_of_not_mem (h : Rearranged lo hi a b) (hk : k < lo ∨ hi < k) : b k = a k := by
  obtain ⟨σ, hσ, rfl⟩ := h
  exact congrArg a (hσ k hk)

/-- An element comes from inside. -/
theorem exists_eq (h : Rearranged lo hi a b) (hk : lo ≤ k ∧ k ≤ hi) :
    ∃ l, (lo ≤ l ∧ l ≤ hi) ∧ b k = a l := by
  obtain ⟨σ, hσ, rfl⟩ := h
  refine ⟨σ k, ?_, rfl⟩
  by_contra hout
  have hfix : σ (σ k) = σ k := hσ (σ k) (by omega)
  have hkk : σ k = k := σ.injective hfix
  omega

/-- **The elements are a permutation.** -/
theorem perm {n : Nat} (h : Rearranged 1 n a b) :
    ((List.range n).map fun k => b (k + 1)).Perm ((List.range n).map fun k => a (k + 1)) := by
  obtain ⟨σ, hσ, rfl⟩ := h
  have hmem : ∀ k, 1 ≤ k ∧ k ≤ n → 1 ≤ σ k ∧ σ k ≤ n := by
    intro k hk
    by_contra hout
    have hkk : σ k = k := σ.injective (hσ (σ k) (by omega))
    omega
  have hindex : ((List.range n).map fun k => σ (k + 1) - 1).Perm (List.range n) := by
    refine List.Subperm.perm_of_length_le (List.Nodup.subperm ?_ ?_) (by simp)
    · refine (List.nodup_map_iff_inj_on List.nodup_range).mpr fun x hx y hy heq => ?_
      rw [List.mem_range] at hx hy
      have h1 := hmem (x + 1) (by omega)
      have h2 := hmem (y + 1) (by omega)
      have heq' : σ (x + 1) = σ (y + 1) := by omega
      have := σ.injective heq'
      omega
    · intro l hl
      obtain ⟨k, hk, rfl⟩ := List.mem_map.mp hl
      rw [List.mem_range] at hk ⊢
      have := hmem (k + 1) (by omega)
      omega
  have hmap := hindex.map fun k => a (k + 1)
  rw [List.map_map] at hmap
  refine (List.Perm.of_eq (List.map_congr_left fun k hk => ?_)).trans hmap
  rw [List.mem_range] at hk
  have := hmem (k + 1) (by omega)
  change a (σ (k + 1)) = a (σ (k + 1) - 1 + 1)
  rw [Nat.sub_add_cancel this.1]

end Rearranged

/-! ## Heaps -/

variable (le : α → α → Prop)

/-- The nodes from `lo` on are not less than their children. -/
def HeapFrom (lo n : Nat) (a : Nat → α) : Prop :=
  ∀ c, c ≤ n → lo ≤ c / 2 → le (a c) (a (c / 2))

/-- **A heap that is broken at one node.**  All other nodes from `lo` on are not less than
their children, and the parent of the node is not less than the node's children. -/
structure HeapExcept (lo n i : Nat) (a : Nat → α) : Prop where
  other : ∀ c, c ≤ n → lo ≤ c / 2 → c / 2 ≠ i → le (a c) (a (c / 2))
  grand : ∀ c, c ≤ n → c / 2 = i → lo ≤ i / 2 → le (a c) (a (i / 2))

variable {le} {lo n i m : Nat} {a : Nat → α}

/-- A heap from the next node on. -/
theorem HeapFrom.except (h : HeapFrom le (i + 1) n a) (hi : 1 ≤ i) : HeapExcept le i n i a :=
  ⟨fun c hc hlo hne => h c hc (by omega), fun _ _ _ hlo => by omega⟩

/-- The node is not less than its children: the heap is in order. -/
theorem HeapExcept.done (h : HeapExcept le lo n i a)
    (hnode : ∀ c, c ≤ n → c / 2 = i → le (a c) (a i)) : HeapFrom le lo n a := by
  intro c hc hlo
  by_cases hci : c / 2 = i
  · rw [hci]
    exact hnode c hc hci
  · exact h.other c hc hlo hci

/-- **One step down**: the node is swapped with the greatest of its children. -/
theorem HeapExcept.sift (h : HeapExcept le lo n i a) (hi : 1 ≤ i) (hlo : lo ≤ i) (hm : m / 2 = i)
    (hmn : m ≤ n) (hge : le (a i) (a m)) (hmax : ∀ c, c ≤ n → c / 2 = i → le (a c) (a m)) :
    HeapExcept le lo n m (a ∘ Equiv.swap i m) := by
  have hleft : (a ∘ Equiv.swap i m) i = a m := congrArg a (Equiv.swap_apply_left i m)
  have hright : (a ∘ Equiv.swap i m) m = a i := congrArg a (Equiv.swap_apply_right i m)
  have hother : ∀ k, k ≠ i → k ≠ m → (a ∘ Equiv.swap i m) k = a k := fun k h1 h2 =>
    congrArg a (Equiv.swap_apply_of_ne_of_ne h1 h2)
  constructor
  · intro c hc hlo' hcm
    by_cases hci : c / 2 = i
    · rw [hci, hleft]
      by_cases hcm' : c = m
      · rw [hcm', hright]
        exact hge
      · rw [hother c (by omega) hcm']
        exact hmax c hc hci
    · rw [hother (c / 2) hci hcm]
      by_cases hci' : c = i
      · rw [hci', hleft]
        exact h.grand m hmn hm (hci' ▸ hlo')
      · rw [hother c hci' (by omega)]
        exact h.other c hc hlo' hci
  · intro c hc hcm _
    rw [hm, hleft, hother c (by omega) (by omega)]
    have hchild := h.other c hc (by omega) (by omega)
    rwa [hcm] at hchild

/-- **No node is greater than the first.** -/
theorem HeapFrom.le_root (h : HeapFrom le 1 n a) (hrefl : ∀ x, le x x)
    (htrans : ∀ x y z, le x y → le y z → le x z) {k : Nat} (hk : 1 ≤ k) (hkn : k ≤ n) :
    le (a k) (a 1) := by
  induction k using Nat.strongRecOn with
  | ind k ih =>
    rcases Nat.eq_or_lt_of_le hk with rfl | hlt
    · exact hrefl _
    · exact htrans _ _ _ (h k hkn (by omega)) (ih (k / 2) (by omega) (by omega) (by omega))

/-- The first and the last node are swapped, and the last is given up. -/
theorem HeapFrom.pop (h : HeapFrom le 1 (n + 1) a) (hn : 1 ≤ n) :
    HeapExcept le 1 n 1 (a ∘ Equiv.swap 1 (n + 1)) := by
  refine ⟨fun c hc hlo hne => ?_, fun _ _ _ hlo => by omega⟩
  have hother : ∀ k, k ≠ 1 → k ≠ n + 1 → (a ∘ Equiv.swap 1 (n + 1)) k = a k := fun k h1 h2 =>
    congrArg a (Equiv.swap_apply_of_ne_of_ne h1 h2)
  rw [hother c (by omega) (by omega), hother (c / 2) hne (by omega)]
  exact h c (by omega) hlo

/-! ## Sorting -/

/-- **The state of the sort**: a heap of `n` nodes, followed by elements in order that are
not less than those in the heap. -/
structure Sorting (le : α → α → Prop) (n total : Nat) (a : Nat → α) : Prop where
  heap : HeapFrom le 1 n a
  sorted : ∀ j k, n < j → j < k → k ≤ total → le (a j) (a k)
  apart : ∀ j k, 1 ≤ j → j ≤ n → n < k → k ≤ total → le (a j) (a k)

/-- **One round**: the greatest element of the heap goes behind it, and what is left is
rearranged to a heap. -/
theorem Sorting.step {total : Nat} {b : Nat → α} (h : Sorting le (n + 1) total a)
    (hn : 1 ≤ n) (hrefl : ∀ x, le x x) (htrans : ∀ x y z, le x y → le y z → le x z)
    (hb : HeapFrom le 1 n b) (hmoved : Rearranged 1 n (a ∘ Equiv.swap 1 (n + 1)) b) :
    Sorting le n total b := by
  -- behind the heap only the first of its elements has come in
  have hbehind : ∀ k, n < k → b k = if k = n + 1 then a 1 else a k := by
    intro k hk
    rw [hmoved.eq_of_not_mem (.inr hk)]
    split
    · rename_i hkn
      rw [hkn]
      exact congrArg a (Equiv.swap_apply_right 1 (n + 1))
    · rename_i hkn
      exact congrArg a (Equiv.swap_apply_of_ne_of_ne (by omega) hkn)
  have hinside : ∀ j, 1 ≤ j → j ≤ n → ∃ l, (1 ≤ l ∧ l ≤ n + 1) ∧ b j = a l := by
    intro j hj hjn
    obtain ⟨l, hl, heq⟩ := hmoved.exists_eq ⟨hj, hjn⟩
    by_cases hl1 : l = 1
    · refine ⟨n + 1, by omega, heq.trans ?_⟩
      rw [hl1]
      exact congrArg a (Equiv.swap_apply_left 1 (n + 1))
    · exact ⟨l, by omega, heq.trans (congrArg a (Equiv.swap_apply_of_ne_of_ne hl1 (by omega)))⟩
  refine ⟨hb, fun j k hj hjk hk => ?_, fun j k hj hjn hnk hk => ?_⟩
  · rw [hbehind j hj, hbehind k (by omega), if_neg (by omega : ¬k = n + 1)]
    split
    · exact h.apart 1 k (Nat.le_refl 1) (by omega) (by omega) hk
    · exact h.sorted j k (by omega) hjk hk
  · obtain ⟨l, hl, heq⟩ := hinside j hj hjn
    rw [heq, hbehind k hnk]
    split
    · exact h.heap.le_root hrefl htrans hl.1 hl.2
    · exact h.apart l k hl.1 hl.2 (by omega) hk

/-- **At the end, everything is in order.** -/
theorem Sorting.pairwise {total : Nat} (h : Sorting le n total a) (hn : n ≤ 1) :
    ∀ j k, 1 ≤ j → j < k → k ≤ total → le (a j) (a k) := by
  intro j k hj hjk hk
  rcases Nat.lt_or_ge n j with hlt | hle
  · exact h.sorted j k hlt hjk hk
  · exact h.apart j k hj hle (by omega) hk

end Pintos.BinaryHeap
