/-!
# Assertions and machine integers

A function of the kernel that may panic returns an `Option`, and `none` stands for the
panic.  `size_t`, `unsigned` and pointers are 32 bits wide.
-/

namespace Pintos

/-- `ASSERT`. -/
def assert (p : Prop) [Decidable p] : Option Unit :=
  if p then some () else none

@[simp] theorem assert_of {p : Prop} [Decidable p] (h : p) : assert p = some () :=
  if_pos h

/-- A step of a function that has not panicked. -/
theorem some_bind {α β : Type} (a : α) (f : α → Option β) : (some a >>= f) = f a :=
  rfl

/-- A function that has not panicked did not do so in its first step. -/
theorem of_bind {α β : Type} {x : Option α} {f : α → Option β} {b : β} (h : x >>= f = some b) :
    ∃ a, x = some a ∧ f a = some b :=
  Option.bind_eq_some_iff.mp h

/-- An assertion that has been passed holds. -/
theorem of_assert {p : Prop} [Decidable p] {u : Unit} (h : assert p = some u) : p := by
  rw [assert] at h
  split at h
  · assumption
  · exact nomatch h

/-- **The rule for a loop** that counts from 0 and may panic: what holds before it and is
carried on by every round holds behind it. -/
theorem foldlM_range {σ : Type} {f : σ → Nat → Option σ} {P : Nat → σ → Prop} (n : Nat) {s : σ}
    (hs : P 0 s) (hstep : ∀ k s, k < n → P k s → ∃ s', f s k = some s' ∧ P (k + 1) s') :
    ∃ s', (List.range n).foldlM f s = some s' ∧ P n s' := by
  induction n with
  | zero => exact ⟨s, rfl, hs⟩
  | succ n ih =>
    obtain ⟨s', hloop, hs'⟩ := ih fun k s hk => hstep k s (Nat.lt_succ_of_lt hk)
    obtain ⟨s'', hround, hs''⟩ := hstep n s' (Nat.lt_succ_self n) hs'
    exact ⟨s'', by simp [List.range_succ, List.foldlM_append, hloop, hround], hs''⟩

/-- One more than the largest value of an `unsigned`, 2 to the 32. -/
def unsignedSize : Nat := 4294967296

/-- `++`, on `size_t`. -/
def increment (n : Nat) : Nat :=
  if n + 1 = unsignedSize then 0 else n + 1

/-- `--`, on `size_t`. -/
def decrement (n : Nat) : Nat :=
  if n = 0 then unsignedSize - 1 else n - 1

theorem increment_eq {n : Nat} (h : n + 1 < unsignedSize) : increment n = n + 1 :=
  if_neg (Nat.ne_of_lt h)

theorem decrement_eq {n : Nat} (h : 0 < n) : decrement n = n - 1 :=
  if_neg (Nat.ne_of_gt h)

/-- `DIV_ROUND_UP`, on `size_t`. -/
def divRoundUp (x step : Nat) : Nat :=
  (x + step - 1) % unsignedSize / step

end Pintos
