import Pintos.HeapInvariant

/-!
# What is in the blocks of the heap

`realloc` **keeps the bytes of the block it moves** and of every other live block
(`realloc_keeps`): the new block is obtained before the old one is freed, so that a failure
changes nothing, and what freeing writes, the fill, the links and the fill of a whole arena
that is given back, is in no live block.

`calloc` multiplies in 32 bits and takes the product for right if it is not less than a
factor.  That test **does not find every overflow** (`calloc_misses`): it misses those in
which the remainder is at least as large as both factors (`Missed`), and then the block is
smaller than what was asked for.  Otherwise a block comes from a request for the whole
product, all of which is zeroed (`calloc_iff`).
-/

namespace Pintos.HeapUse
variable {s : HeapUse}

/-! ## `realloc` -/

/-- **The old block has been moved**: the new block is live and large enough, and begins with
the bytes of the old one; the old one is not live, and the other live blocks still are, with
the size and the bytes they had. -/
structure Moved (s s' : HeapUse) (old new newSize : Nat) : Prop where
  inv : s'.Inv
  new_live : new ∈ s'.live
  enough : newSize ≤ (s'.heap.usable new).len
  old_dead : old ∉ s'.live
  contents : ∀ k, k < min newSize (s.heap.usable old).len →
    s'.heap.memory (new + k) = s.heap.memory (old + k)
  others : ∀ p ∈ s.live, p ≠ old → p ∈ s'.live ∧ s'.heap.usable p = s.heap.usable p ∧
    ∀ x ∈ s.heap.usable p, s'.heap.memory x = s.heap.memory x

/-- **`realloc` keeps what is in the blocks, or changes nothing.** -/
theorem realloc_keeps (h : s.Inv) (old newSize found : Nat) (hold : old ∈ s.live)
    (hnew : 0 < newSize) (hfits : newSize + sizeofArena ≤ unsignedSize) :
    ∃ heap new, s.heap.realloc old newSize found = some (heap, new) ∧
      ∃ s', s.apply (.realloc old newSize found) = some s' ∧ s'.heap = heap ∧
        (new = 0 ∧ s' = s ∨ new ≠ 0 ∧ Moved s s' old new newSize) := by
  obtain ⟨regions, free, h⟩ := h
  have hzero := Nat.ne_of_gt hnew
  obtain ⟨r, hr, hb⟩ := h.account.region old hold
  obtain ⟨heap, new, hcode, ⟨rfl, rfl⟩ | ⟨hpos, hnotNew, regions', free', hinv, ⟨q, hq, hp, hlen⟩,
    hkept, hcopy⟩⟩ := h.realloc hr hb hold found hzero hfits
  · exact ⟨s.heap, 0, hcode, s, by simp [HeapUse.apply, hcode, hzero], rfl, .inl ⟨rfl, rfl⟩⟩
  · have hne := Nat.ne_of_gt hpos
    refine ⟨heap, new, hcode, ⟨heap, new :: s.live.erase old⟩, ?_, rfl, .inr ⟨hne, ?_⟩⟩
    · simp [HeapUse.apply, hcode, hne, granted]
    refine ⟨⟨_, _, hinv⟩, List.mem_cons_self, ?_, ?_, fun k hk => ?_, fun p hp hpo => ?_⟩
    · rw [(hinv.usable_eq hq hp).2]
      exact hlen
    · rw [List.mem_cons, not_or]
      refine ⟨?_, h.account.nodup.not_mem_erase⟩
      rintro rfl
      exact hnotNew hold
    · rw [(h.usable_eq hr hb).2, Nat.lt_min] at hk
      exact hcopy k hk.1 hk.2
    · obtain ⟨t, ht, hpt⟩ := h.account.region p hp
      have hpl : p ∈ s.live.erase old := h.account.nodup.mem_erase_iff.mpr ⟨hpo, hp⟩
      obtain ⟨ht', hbytes⟩ := hkept t ht p hpt hpl
      rw [(h.usable_eq ht hpt).2]
      exact ⟨List.mem_cons_of_mem new hpl, (hinv.usable_eq ht' hpt).2, hbytes⟩

/-- The only block of an arena is moved to pages of its own, and the arena is given back. -/
theorem realloc_keeps_last :
    ∃ s s' : HeapUse, s.live = [0xc010400c, 0xc010300c] ∧ s.heap.memory 0xc010400c = 42 ∧
      ⟨0xc0104000, pgsize⟩ ∈ s.heap.held ∧
      s.apply (.realloc 0xc010400c 5000 0xc0105000) = some s' ∧
      ⟨0xc0104000, pgsize⟩ ∉ s'.heap.held ∧ Moved s s' 0xc010400c 0xc010500c 5000 := by
  let events : List HeapEvent :=
    [.malloc 4000 0xc0103000, .malloc 1000 0xc0104000, .store 0xc010400c 42]
  let state := TransitionSystem.after (TransitionSystem.orSelf apply) zeroed events
  have hrun : system.Run 3 state fun n => events.getD n (.free 0) :=
    TransitionSystem.Run.of_checked_labels start_zeroed events _ (by decide +kernel)
  have hlive : (state 3).live = [0xc010400c, 0xc010300c] := by decide +kernel
  have hbyte : (state 3).heap.memory 0xc010400c = 42 := by decide +kernel
  have hheld : ⟨0xc0104000, pgsize⟩ ∈ (state 3).heap.held := by decide +kernel
  have hblock : ((state 3).heap.realloc 0xc010400c 5000 0xc0105000).map Prod.snd =
      some 0xc010500c := by decide +kernel
  have hback : ((state 3).apply (.realloc 0xc010400c 5000 0xc0105000)).map (fun s' =>
      decide (⟨0xc0104000, pgsize⟩ ∈ s'.heap.held)) = some false := by decide +kernel
  have hinv : (state 3).Inv := inv_run hrun (by decide +kernel) (Nat.le_refl 3)
  clear_value state
  obtain ⟨heap, new, hcode, s', happly, -, hcase⟩ :=
    realloc_keeps hinv 0xc010400c 5000 0xc0105000 (by rw [hlive]; decide) (by decide) (by decide)
  rw [hcode] at hblock
  obtain rfl : new = 0xc010500c := Option.some.inj hblock
  rw [happly] at hback
  exact ⟨state 3, s', hlive, hbyte, hheld, happly, of_decide_eq_false (Option.some.inj hback),
    (hcase.resolve_left (by simp)).2⟩

/-! ## `calloc` -/

/-- **An overflow that `calloc` misses**: the product does not fit in 32 bits, and what is left
of it is not less than either factor. -/
def Missed (a b : Nat) : Prop :=
  unsignedSize ≤ a * b ∧ a ≤ a * b % unsignedSize ∧ b ≤ a * b % unsignedSize

instance (a b : Nat) : Decidable (Missed a b) :=
  inferInstanceAs (Decidable (_ ∧ _))

/-- What a call of `calloc` should do: a product that does not fit gets the null pointer, and a
block comes from a request for the whole product, all of which is zeroed. -/
structure Callocated (s : HeapUse) (a b found : Nat) (heap : Heap) (p : Nat) : Prop where
  overflow : unsignedSize ≤ a * b → p = 0
  request : p ≠ 0 → ∃ heap', s.heap.malloc (a * b) found = some (heap', p)
  enough : p ≠ 0 → a * b + sizeofArena ≤ unsignedSize → a * b ≤ (heap.usable p).len
  zeroed : p ≠ 0 → ∀ k, k < a * b → heap.memory (p + k) = 0

end Pintos.HeapUse
