import Mathlib.Data.List.GetD
import Pintos.Extent

/-!
# Byte-addressed memory

Memory gives every address a byte.  A word is four bytes, the lowest first.  Everything
later proofs need to know about a write is what it puts where it writes and that **it
changes nothing elsewhere**: two words, or a word and a range, do not disturb each other
when they are apart.
-/

/-- What is in memory. -/
abbrev Memory := Nat → BitVec 8

namespace Memory
open List
variable {m m' : Memory} {a b v x : Nat} {e : Extent}

/-- The bytes of a word. -/
def wordAt (a : Nat) : Extent := ⟨a, 4⟩

/-- The word at `a`. -/
def word (m : Memory) (a : Nat) : Nat :=
  (m a).toNat + 256 * ((m (a + 1)).toNat + 256 * ((m (a + 2)).toNat + 256 * (m (a + 3)).toNat))

/-- Writes the word at `a`. -/
def setWord (m : Memory) (a v : Nat) : Memory := fun x =>
  if x ∈ wordAt a then BitVec.ofNat 8 (v >>> (8 * (x - a))) else m x

/-- Writes one byte everywhere in a range. -/
def fill (m : Memory) (e : Extent) (byte : BitVec 8) : Memory := fun x =>
  if x ∈ e then byte else m x

/-- Copies `n` bytes from `src` to `dst`. -/
def copy (m : Memory) (dst src n : Nat) : Memory := fun x =>
  if x ∈ (⟨dst, n⟩ : Extent) then m (src + (x - dst)) else m x

theorem mem_wordAt : x ∈ wordAt a ↔ a ≤ x ∧ x < a + 4 :=
  Iff.rfl

theorem setWord_of_notMem (hx : x ∉ wordAt a) : m.setWord a v x = m x :=
  if_neg hx

theorem fill_of_notMem {byte : BitVec 8} (hx : x ∉ e) : m.fill e byte x = m x :=
  if_neg hx

theorem copy_of_notMem {dst src n : Nat} (hx : x ∉ (⟨dst, n⟩ : Extent)) :
    m.copy dst src n x = m x :=
  if_neg hx

/-- The bytes of a word decide it. -/
theorem word_congr (h : ∀ x ∈ wordAt a, m' x = m x) : m'.word a = m.word a := by
  have hbyte : ∀ k, k < 4 → m' (a + k) = m (a + k) := fun k hk =>
    h (a + k) (mem_wordAt.mpr ⟨Nat.le_add_right a k, Nat.add_lt_add_left hk a⟩)
  have h0 : m' a = m a := hbyte 0 (by decide)
  rw [word, word, h0, hbyte 1 (by decide), hbyte 2 (by decide), hbyte 3 (by decide)]

/-- **A word reads back as it was written.** -/
theorem word_setWord (m : Memory) (a : Nat) (hv : v < 4294967296) :
    (m.setWord a v).word a = v := by
  have hbyte : ∀ k, k < 4 → m.setWord a v (a + k) = BitVec.ofNat 8 (v >>> (8 * k)) := by
    intro k hk
    rw [setWord, if_pos (mem_wordAt.mpr ⟨Nat.le_add_right a k, Nat.add_lt_add_left hk a⟩),
      Nat.add_sub_cancel_left]
  have h0 := hbyte 0 (by decide)
  rw [Nat.add_zero] at h0
  rw [word, h0, hbyte 1 (by decide), hbyte 2 (by decide), hbyte 3 (by decide)]
  simp only [BitVec.toNat_ofNat, Nat.shiftRight_eq_div_pow]
  omega

/-- **A word is not disturbed** by a write apart from it. -/
theorem word_setWord_of_le (h : a + 4 ≤ b ∨ b + 4 ≤ a) : (m.setWord b v).word a = m.word a :=
  word_congr fun x hx => setWord_of_notMem (Extent.apart_iff.mpr (.inr (.inr h)) x hx)

/-- A word inside a range. -/
theorem mem_of_mem_wordAt {k n : Nat} (hk : k + 4 ≤ n) (hx : x ∈ wordAt (a + k)) :
    x ∈ (⟨a, n⟩ : Extent) := by
  rw [mem_wordAt] at hx
  simp only [Extent.mem_iff]
  omega

/-! ## Runs of bytes -/

/-- The `n` bytes from `a` on. -/
def load (m : Memory) (a n : Nat) : List (BitVec 8) :=
  (List.range n).map fun k => m (a + k)

/-- Writes bytes from `a` on. -/
def store (m : Memory) (a : Nat) (bytes : List (BitVec 8)) : Memory := fun x =>
  if x ∈ (⟨a, bytes.length⟩ : Extent) then bytes.getD (x - a) 0 else m x

variable {n : Nat} {bytes : List (BitVec 8)}

theorem store_of_notMem (hx : x ∉ (⟨a, bytes.length⟩ : Extent)) : m.store a bytes x = m x :=
  if_neg hx

theorem load_congr (h : ∀ k, k < n → m' (a + k) = m (a + k)) : m'.load a n = m.load a n :=
  map_congr_left fun k hk => h k (mem_range.mp hk)

theorem load_add (m : Memory) (a i j : Nat) : m.load a (i + j) = m.load a i ++ m.load (a + i) j := by
  simp [load, range_add, Nat.add_assoc]

theorem length_load (m : Memory) (a n : Nat) : (m.load a n).length = n := by
  simp [load]

theorem drop_load (m : Memory) (a n k : Nat) : (m.load a n).drop k = m.load (a + k) (n - k) := by
  refine ext_getElem (by simp [load]) fun i _ _ => ?_
  simp [load, Nat.add_assoc]

theorem take_load (m : Memory) (a n k : Nat) : (m.load a n).take k = m.load a (min k n) := by
  simp [load, ← map_take, take_range]

theorem load_one (m : Memory) (a : Nat) : m.load a 1 = [m a] :=
  rfl

/-- **Bytes read back as they were written.** -/
theorem load_store (m : Memory) (a : Nat) (bytes : List (BitVec 8)) :
    (m.store a bytes).load a bytes.length = bytes := by
  refine ext_getElem (length_load _ _ _) fun k hk hk' => ?_
  have hmem : a + k ∈ (⟨a, bytes.length⟩ : Extent) :=
    ⟨Nat.le_add_right a k, Nat.add_lt_add_left hk' a⟩
  simp [load, store, if_pos hmem, hk']

theorem store_nil (m : Memory) (a : Nat) : m.store a [] = m :=
  funext fun _ => store_of_notMem fun hx => Nat.lt_irrefl a (Nat.lt_of_le_of_lt hx.1 hx.2)

theorem store_apply_of_le (h1 : a ≤ x) (h2 : x < a + bytes.length) :
    m.store a bytes x = bytes.getD (x - a) 0 :=
  if_pos ⟨h1, h2⟩

theorem store_of_lt {l : List (BitVec 8)} (h : x < a ∨ a + l.length ≤ x) : m.store a l x = m x :=
  store_of_notMem fun hx => h.elim (Nat.not_lt.mpr hx.1) (Nat.not_le.mpr hx.2)

/-- Two runs of bytes, one behind the other, are one run. -/
theorem store_append (m : Memory) (a : Nat) (l l' : List (BitVec 8)) :
    m.store a (l ++ l') = (m.store a l).store (a + l.length) l' := by
  funext x
  rcases Nat.lt_or_ge x (a + l.length) with hx | hx
  · rw [store_of_lt (l := l') (.inl hx)]
    rcases Nat.lt_or_ge x a with hxa | hxa
    · rw [store_of_lt (.inl hxa), store_of_lt (.inl hxa)]
    · rw [store_apply_of_le hxa (by rw [length_append]; omega), store_apply_of_le hxa hx,
        getD_append _ _ _ _ (by omega)]
  · rcases Nat.lt_or_ge x (a + l.length + l'.length) with hx' | hx'
    · rw [store_apply_of_le (by omega) (by rw [length_append]; omega),
        store_apply_of_le hx hx', getD_append_right _ _ _ _ (by omega), Nat.sub_sub]
    · rw [store_of_lt (.inr (by rw [length_append]; omega)), store_of_lt (.inr hx'),
        store_of_lt (.inr hx)]

/-- Runs of bytes that are apart can be written in either order. -/
theorem store_comm {b : Nat} {l l' : List (BitVec 8)}
    (h : a + l.length ≤ b ∨ b + l'.length ≤ a) :
    (m.store a l).store b l' = (m.store b l').store a l := by
  funext x
  by_cases ha : a ≤ x ∧ x < a + l.length
  · rw [store_of_lt (a := b) (by omega), store_apply_of_le ha.1 ha.2, store_apply_of_le ha.1 ha.2]
  · have hout : x < a ∨ a + l.length ≤ x := by omega
    rw [store_of_lt (a := a) (m := m.store b l') hout]
    by_cases hb : b ≤ x ∧ x < b + l'.length
    · rw [store_apply_of_le hb.1 hb.2, store_apply_of_le hb.1 hb.2]
    · have hout' : x < b ∨ b + l'.length ≤ x := by omega
      rw [store_of_lt hout', store_of_lt hout', store_of_lt hout]

/-- Writing back what is there changes nothing. -/
theorem store_load (m : Memory) (a n : Nat) : m.store a (m.load a n) = m := by
  funext x
  rcases Nat.lt_or_ge x a with hxa | hxa
  · exact store_of_lt (.inl hxa)
  · rcases Nat.lt_or_ge x (a + n) with hxn | hxn
    · rw [store_apply_of_le hxa (by rw [length_load]; exact hxn), load,
        getD_eq_getElem _ _ (by simp; omega), getElem_map, getElem_range,
        Nat.add_sub_cancel' hxa]
    · exact store_of_lt (.inr (by rw [length_load]; exact hxn))

/-- Writes one after the other. -/
def storeAll (m : Memory) (writes : List (Nat × List (BitVec 8))) : Memory :=
  writes.foldl (fun m w => m.store w.1 w.2) m

/-- Where a write goes. -/
def writeAt (w : Nat × List (BitVec 8)) : Extent :=
  ⟨w.1, w.2.length⟩

theorem storeAll_of_notMem {writes : List (Nat × List (BitVec 8))}
    (hx : ∀ w ∈ writes, x ∉ writeAt w) : m.storeAll writes x = m x := by
  induction writes generalizing m with
  | nil => rfl
  | cons w writes ih =>
    rw [storeAll, foldl_cons, ← storeAll,
      ih fun w' hw' => hx w' (mem_cons_of_mem w hw')]
    exact store_of_notMem (hx w mem_cons_self)

/-- **Writes that are apart** all read back. -/
theorem load_storeAll {writes : List (Nat × List (BitVec 8))} {w : Nat × List (BitVec 8)}
    (hapart : writes.Pairwise fun w w' => (writeAt w).Apart (writeAt w')) (hw : w ∈ writes) :
    (m.storeAll writes).load w.1 w.2.length = w.2 := by
  induction writes generalizing m with
  | nil => exact absurd hw not_mem_nil
  | cons w' writes ih =>
    obtain ⟨hfirst, hrest⟩ := pairwise_cons.mp hapart
    rcases mem_cons.mp hw with rfl | hw
    · rw [storeAll, foldl_cons, ← storeAll]
      refine (load_congr fun k hk => storeAll_of_notMem fun w' hw' => ?_).trans (load_store m _ _)
      exact hfirst w' hw' _ ⟨Nat.le_add_right _ k, Nat.add_lt_add_left hk _⟩
    · exact ih hrest hw

end Memory
