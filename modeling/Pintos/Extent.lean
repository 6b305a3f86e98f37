import Mathlib.Data.List.Basic

/-!
# Extents

Ranges of consecutive numbers: pages of memory, sectors of a disk, bytes of a heap.  An
extent may be empty.  Taking an extent out of another one that contains it (`minus`)
leaves at most two.
-/

/-- The `len` numbers from `start` on. -/
structure Extent where
  start : Nat
  len : Nat
  deriving DecidableEq

namespace Extent
variable {e e' f f' : Extent} {n : Nat}

instance : Membership Nat Extent :=
  ⟨fun e n => e.start ≤ n ∧ n < e.start + e.len⟩

theorem mem_iff : n ∈ e ↔ e.start ≤ n ∧ n < e.start + e.len :=
  Iff.rfl

instance : Decidable (n ∈ e) :=
  inferInstanceAs (Decidable (_ ∧ _))

/-- The extents have no number in common. -/
def Apart (e f : Extent) : Prop :=
  ∀ n, n ∈ e → n ∉ f

theorem Apart.symm (h : e.Apart f) : f.Apart e :=
  fun n hf he => h n he hf

theorem Apart.mono (h : e.Apart f) (he : ∀ n, n ∈ e' → n ∈ e) (hf : ∀ n, n ∈ f' → n ∈ f) :
    e'.Apart f' :=
  fun n hn hn' => h n (he n hn) (hf n hn')

/-- An extent that ends before the other one begins. -/
theorem apart_of_le (h : e.start + e.len ≤ f.start) : e.Apart f := by
  intro n he hf
  rw [mem_iff] at he hf
  omega

/-- Two extents are apart when one is empty or ends before the other one begins. -/
theorem apart_iff : e.Apart f ↔
    e.len = 0 ∨ f.len = 0 ∨ e.start + e.len ≤ f.start ∨ f.start + f.len ≤ e.start := by
  refine ⟨fun h => ?_, fun h n he hf => ?_⟩
  · -- the larger of the two first numbers is in both, if they overlap
    have he := h (max e.start f.start)
    rw [mem_iff, mem_iff] at he
    omega
  · rw [mem_iff] at he hf
    omega

instance : Decidable (e.Apart f) :=
  decidable_of_iff _ apart_iff.symm

theorem notMem_of_len (h : e.len = 0) : n ∉ e := by
  rw [mem_iff]
  omega

theorem apart_of_len (h : e.len = 0) : e.Apart f :=
  fun _ he => absurd he (notMem_of_len h)

/-- Every number of the one is a number of the other, also where the first is empty. -/
def Within (e f : Extent) : Prop :=
  f.start ≤ e.start ∧ e.start + e.len ≤ f.start + f.len

instance : Decidable (e.Within f) :=
  inferInstanceAs (Decidable (_ ∧ _))

theorem Within.mem (h : e.Within f) (hn : n ∈ e) : n ∈ f := by
  unfold Within at h
  rw [mem_iff] at hn ⊢
  omega

/-- What is left of an extent when one within it is taken out. -/
def minus (e f : Extent) : List Extent :=
  [⟨e.start, f.start - e.start⟩, ⟨f.start + f.len, e.start + e.len - (f.start + f.len)⟩].filter
    fun x => 0 < x.len

/-- **Nothing else is taken out.** -/
theorem mem_minus (h : f.Within e) : (∃ x ∈ e.minus f, n ∈ x) ↔ n ∈ e ∧ n ∉ f := by
  unfold Within at h
  simp only [minus, List.mem_filter, List.mem_cons, List.not_mem_nil, or_false,
    decide_eq_true_eq, mem_iff, not_and, Nat.not_lt]
  constructor
  · rintro ⟨x, ⟨rfl | rfl, -⟩, hx⟩ <;> exact ⟨by simp only at hx; omega, by simp only at hx; omega⟩
  · rintro ⟨he, hf⟩
    by_cases hn : n < f.start
    · exact ⟨_, ⟨.inl rfl, by simp only; omega⟩, by simp only; omega⟩
    · exact ⟨_, ⟨.inr rfl, by simp only; omega⟩, by simp only; omega⟩

theorem len_pos_of_mem_minus {x : Extent} (hx : x ∈ e.minus f) : 0 < x.len := by
  simpa using (List.mem_filter.mp hx).2

theorem within_of_mem_minus (h : f.Within e) {x : Extent} (hx : x ∈ e.minus f) : x.Within e := by
  unfold Within at h ⊢
  simp only [minus, List.mem_filter, List.mem_cons, List.not_mem_nil, or_false] at hx
  rcases hx.1 with rfl | rfl <;> simp only <;> omega

theorem pairwise_minus (e f : Extent) : (e.minus f).Pairwise Apart := by
  refine List.Pairwise.filter _ ?_
  rw [List.pairwise_pair]
  intro n hn hn'
  rw [mem_iff] at hn hn'
  simp only at hn hn'
  omega

end Extent
