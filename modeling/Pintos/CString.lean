import Pintos.Basic
import Pintos.Memory

/-!
# Strings

Functions of `lib/string.c` on strings.  A `const char *` is given as the bytes
from where it points to the end of the object it points into, so that advancing the
pointer is taking the tail, and a read behind the end is a failure, `none`.  Each function
reads one byte after the other and stops where the code does: given a terminated string
it stays within the string and its terminator.

`memmove` works on memory itself.  **It copies correctly however the two regions overlap**,
but it moves the pointer it returns along with the copying: what it returns is the
destination if and only if it copies downwards or nothing at all (`memmove_iff`).
-/

namespace Pintos
open List

/-- `char`. -/
abbrev Byte := BitVec 8

instance (c : Byte) (s : List Byte) : Decidable (c ∈ s) :=
  List.instDecidableMemOfLawfulBEq c s

/-- A character constant. -/
def ch (c : Char) : Byte :=
  BitVec.ofNat 8 c.toNat

/-- `const char *`: the bytes from there on. -/
abbrev CharPtr := List Byte

namespace CString

/-- A string literal, with its terminator. -/
def lit (s : List Char) : CharPtr :=
  s.map ch ++ [0]

/-- The string a pointer points to. -/
def string (p : CharPtr) : List Byte :=
  p.takeWhile (· ≠ 0)

/-! ## The code -/

/-- `strlen`. -/
def strlen : CharPtr → Option Nat
  | [] => none
  | c :: p => if c = 0 then some 0 else (strlen p).map (· + 1)

/-- `memcmp`. -/
def memcmp : CharPtr → CharPtr → Nat → Option Int
  | _, _, 0 => some 0
  | a :: p, b :: q, n + 1 => if a ≠ b then some (if a > b then 1 else -1) else memcmp p q n
  | _, _, _ + 1 => none

/-- The result of `strcmp`, by the first characters that differ. -/
def order (a b : Byte) : Int :=
  if a < b then -1 else if a > b then 1 else 0

/-- `strcmp`. -/
def strcmp : CharPtr → CharPtr → Option Int
  | a :: p, b :: q => if a ≠ 0 ∧ a = b then strcmp p q else some (order a b)
  | _, _ => none

/-- `strchr`; the inner `none` is the null pointer. -/
def strchr : CharPtr → Byte → Option (Option CharPtr)
  | [], _ => none
  | a :: p, c => if a = c then some (some (a :: p)) else if a = 0 then some none else strchr p c

/-- `strlcpy`. -/
def strlcpy (m : Memory) (dst : Nat) (src : CharPtr) (size : Nat) : Option (Memory × Nat) := do
  let srcLen ← strlen src
  if size > 0 then
    let dstLen := if srcLen < size - 1 then srcLen else size - 1
    some (m.store dst (src.take dstLen ++ [0]), srcLen)
  else
    some (m, srcLen)

/-- `isspace`. -/
def isspace (c : Byte) : Bool :=
  c ∈ [ch ' ', 0x0c, ch '\n', ch '\r', ch '\t', 0x0b]

/-- `isdigit`. -/
def isdigit (c : Byte) : Bool :=
  (ch '0').toInt ≤ c.toInt ∧ c.toInt ≤ (ch '9').toInt

/-- The loop of `atoi` over white space: where it ends. -/
def skipSpace : CharPtr → Option CharPtr
  | [] => none
  | c :: p => if isspace c then skipSpace p else some (c :: p)

/-- The loop of `atoi` over the digits, which goes down from 0. -/
def parseDigits : CharPtr → BitVec 32 → Option (BitVec 32)
  | [], _ => none
  | c :: p, value =>
    if isdigit c then parseDigits p (value * 10 - (c.signExtend 32 - (ch '0').signExtend 32))
    else some value

/-- `atoi`. -/
def atoi (p : CharPtr) : Option Int := do
  match ← skipSpace p with
  | [] => none
  | c :: p =>
    if c = ch '-' then
      some (← parseDigits p 0).toInt
    else
      some (-(← parseDigits (if c = ch '+' then p else c :: p) 0)).toInt

/-! ## On a terminated string -/

variable {s l : List Byte} {rest : CharPtr} {c : Byte}

theorem string_append (hs : 0 ∉ s) : string (s ++ 0 :: rest) = s := by
  have hall : ∀ a ∈ s, decide (a ≠ 0) = true := fun a ha => by
    simpa using fun h : a = 0 => hs (h ▸ ha)
  rw [string, takeWhile_append_of_pos hall]
  simp

/-- A pointer to a terminated string splits into the string and what follows it. -/
theorem exists_string {p : CharPtr} (hp : 0 ∈ p) : ∃ s rest, p = s ++ 0 :: rest ∧ 0 ∉ s := by
  obtain ⟨s, rest, hsplit, hs⟩ := eq_append_cons_of_mem hp
  exact ⟨s, rest, hsplit, hs⟩

theorem strlen_append (hs : 0 ∉ s) : strlen (s ++ 0 :: rest) = some s.length := by
  induction s with
  | nil => rfl
  | cons a s ih =>
    rw [mem_cons, not_or] at hs
    rw [cons_append, strlen, if_neg (Ne.symm hs.1), ih hs.2]
    rfl

/-- **`strlcpy`** copies as much of the string as there is room for. -/
theorem strlcpy_eq (m : Memory) (dst : Nat) (rest : CharPtr) {size : Nat} (hs : 0 ∉ s)
    (hsize : 0 < size) :
    strlcpy m dst (s ++ 0 :: rest) size = some (m.store dst (s.take (size - 1) ++ [0]), s.length) := by
  have htake : (s ++ 0 :: rest).take (if s.length < size - 1 then s.length else size - 1)
      = s.take (size - 1) := by
    split
    · rename_i hlt
      rw [take_left, take_of_length_le (Nat.le_of_lt hlt)]
    · rename_i hge
      rw [take_append_of_le_length (Nat.not_lt.mp hge)]
  simp only [strlcpy, strlen_append hs, some_bind, if_pos hsize, htake]

theorem strlcpy_append (m : Memory) (dst : Nat) (rest : CharPtr) {size : Nat} (hs : 0 ∉ s)
    (hsize : s.length < size) :
    strlcpy m dst (s ++ 0 :: rest) size = some (m.store dst (s ++ [0]), s.length) := by
  rw [strlcpy_eq m dst rest hs (Nat.zero_lt_of_lt hsize), take_of_length_le]
  omega

/-- **`memcmp` with a literal** decides whether the string begins with it. -/
theorem memcmp_append (rest rest' : CharPtr) (hs : 0 ∉ s) (hl : 0 ∉ l) :
    ∃ r, memcmp (s ++ 0 :: rest) (l ++ rest') l.length = some r ∧ (r = 0 ↔ l <+: s) := by
  induction l generalizing s with
  | nil => exact ⟨0, by cases s <;> rfl, by simp⟩
  | cons b l ih =>
    rw [mem_cons, not_or] at hl
    cases s with
    | nil =>
      refine ⟨if (0 : Byte) > b then 1 else -1, ?_, ?_⟩
      · rw [nil_append, cons_append, length_cons, memcmp, if_pos hl.1]
      · simp only [prefix_nil, reduceCtorEq, iff_false]
        split <;> decide
    | cons a s =>
      rw [mem_cons, not_or] at hs
      rw [cons_append, cons_append, length_cons, memcmp]
      by_cases hab : a = b
      · obtain ⟨r, hr, hiff⟩ := ih hs.2 hl.2
        refine ⟨r, by rw [if_neg (not_not.mpr hab), hr], ?_⟩
        rw [hiff, hab, cons_prefix_cons]
        simp
      · refine ⟨_, if_pos hab, ?_⟩
        rw [cons_prefix_cons]
        simp only [Ne.symm hab, false_and, iff_false]
        split <;> decide

theorem memcmp_self (l rest rest' : List Byte) :
    memcmp (l ++ rest) (l ++ rest') l.length = some 0 := by
  induction l with
  | nil => exact memcmp.eq_1 rest rest'
  | cons a l ih =>
    rw [cons_append, cons_append, length_cons, memcmp, if_neg (not_not.mpr rfl), ih]

theorem order_eq_zero {a b : Byte} : order a b = 0 ↔ a = b := by
  simp only [order, gt_iff_lt, BitVec.lt_def, ← BitVec.toNat_inj]
  split
  · simp only [Int.reduceNeg, Int.reduceEq, false_iff]
    omega
  · split
    · simp only [Int.reduceEq, false_iff]
      omega
    · simp only [true_iff]
      omega

/-- **`strcmp`** is 0 for equal strings only. -/
theorem strcmp_append (rest rest' : CharPtr) (hs : 0 ∉ s) (hl : 0 ∉ l) :
    ∃ r, strcmp (s ++ 0 :: rest) (l ++ 0 :: rest') = some r ∧ (r = 0 ↔ s = l) := by
  induction s generalizing l with
  | nil =>
    cases l with
    | nil => exact ⟨0, by simp [strcmp, order], by simp⟩
    | cons b l =>
      rw [mem_cons, not_or] at hl
      refine ⟨order 0 b, by rw [nil_append, cons_append, strcmp, if_neg (by simp)], ?_⟩
      rw [order_eq_zero]
      simp only [hl.1, reduceCtorEq]
  | cons a s ih =>
    rw [mem_cons, not_or] at hs
    cases l with
    | nil =>
      refine ⟨order a 0, by rw [cons_append, nil_append, strcmp,
        if_neg fun h => hs.1 h.2.symm], ?_⟩
      rw [order_eq_zero]
      simp only [Ne.symm hs.1, reduceCtorEq]
    | cons b l =>
      rw [mem_cons, not_or] at hl
      rw [cons_append, cons_append, strcmp, List.cons.injEq]
      by_cases hab : a = b
      · obtain ⟨r, hr, hiff⟩ := ih hs.2 hl.2
        exact ⟨r, by rw [if_pos ⟨Ne.symm hs.1, hab⟩, hr], by simp [hiff, hab]⟩
      · exact ⟨order a b, if_neg fun h => hab h.2, by simp [order_eq_zero, hab]⟩

/-- **`strchr`** finds the first occurrence. -/
theorem strchr_append (rest : CharPtr) (hs : 0 ∉ s) (hc : c ∈ s) :
    ∃ s' t, s = s' ++ c :: t ∧ strchr (s ++ 0 :: rest) c = some (some (c :: t ++ 0 :: rest)) := by
  induction s with
  | nil => exact absurd hc not_mem_nil
  | cons a s ih =>
    rw [mem_cons, not_or] at hs
    by_cases hac : a = c
    · exact ⟨[], s, by rw [hac]; rfl, by rw [cons_append, strchr, if_pos hac, hac]; rfl⟩
    · obtain ⟨s', t, hsplit, hcode⟩ := ih hs.2 ((mem_cons.mp hc).resolve_left (Ne.symm hac))
      refine ⟨a :: s', t, by rw [hsplit]; rfl, ?_⟩
      rw [cons_append, strchr, if_neg hac, if_neg (Ne.symm hs.1), hcode]

/-! ### Numbers -/

theorem skipSpace_append (s : List Byte) (rest : CharPtr) :
    ∃ s', skipSpace (s ++ 0 :: rest) = some (s' ++ 0 :: rest) := by
  induction s with
  | nil => exact ⟨[], rfl⟩
  | cons a s ih =>
    rw [cons_append, skipSpace]
    split
    · exact ih
    · exact ⟨a :: s, rfl⟩

theorem parseDigits_append (s : List Byte) (rest : CharPtr) (value : BitVec 32) :
    ∃ value', parseDigits (s ++ 0 :: rest) value = some value' := by
  induction s generalizing value with
  | nil => exact ⟨value, rfl⟩
  | cons a s ih =>
    rw [cons_append, parseDigits]
    split
    · exact ih _
    · exact ⟨value, rfl⟩

/-- `atoi` reads no further than the end of the string. -/
theorem atoi_append (s : List Byte) (rest : CharPtr) : ∃ n, atoi (s ++ 0 :: rest) = some n := by
  obtain ⟨s', hskip⟩ := skipSpace_append s rest
  simp only [atoi, hskip, some_bind]
  cases s' with
  | nil => exact ⟨0, rfl⟩
  | cons c s' =>
    obtain ⟨value, hvalue⟩ := parseDigits_append s' rest 0
    obtain ⟨value', hvalue'⟩ := parseDigits_append (c :: s') rest 0
    rw [cons_append] at hvalue' ⊢
    dsimp only
    split
    · exact ⟨value.toInt, by rw [hvalue]; rfl⟩
    · split
      · exact ⟨(-value).toInt, by rw [hvalue]; rfl⟩
      · exact ⟨(-value').toInt, by rw [hvalue']; rfl⟩

end CString

/-! ## Moving bytes -/

namespace StringOps
variable {m : Memory} {d s size : Nat}

/-- The loop of `memmove` upwards: the memory, and where `dst` is. -/
def moveUp : Nat → Memory → Nat → Nat → Memory × Nat
  | 0, m, dst, _ => (m, dst)
  | size + 1, m, dst, src =>
    moveUp size (Function.update m dst (m src)) (increment dst) (increment src)

/-- The loop of `memmove` downwards, from behind the ends. -/
def moveDown : Nat → Memory → Nat → Nat → Memory × Nat
  | 0, m, dst, _ => (m, dst)
  | size + 1, m, dst, src =>
    let dst := decrement dst
    let src := decrement src
    moveDown size (Function.update m dst (m src)) dst src

/-- `memmove`: the memory, and the pointer it returns. -/
def memmove (m : Memory) (dst src size : Nat) : Option (Memory × Nat) := do
  assert (dst ≠ 0 ∨ size = 0)
  assert (src ≠ 0 ∨ size = 0)
  if dst < src then
    some (moveUp size m dst src)
  else
    some (moveDown size m ((dst + size) % unsignedSize) ((src + size) % unsignedSize))

theorem update_eq_store (m : Memory) (a : Nat) (b : Byte) :
    Function.update m a b = m.store a [b] := by
  funext x
  by_cases hx : x = a
  · rw [hx, Function.update_self, Memory.store_apply_of_le (Nat.le_refl a) (by simp)]
    simp
  · rw [Function.update_of_ne hx, Memory.store_of_lt]
    simp only [length_singleton]
    omega

theorem increment_mod (h : d + 1 ≤ unsignedSize) :
    increment (d % unsignedSize) = (d + 1) % unsignedSize := by
  unfold increment unsignedSize at *
  split <;> omega

theorem decrement_mod (h : d + 1 ≤ unsignedSize) :
    decrement ((d + 1) % unsignedSize) = d % unsignedSize := by
  unfold decrement unsignedSize at *
  split <;> omega

/-- **Upwards**, to a lower address: what is read has not been written yet. -/
theorem moveUp_eq (hds : d < s) (hs : s + size ≤ unsignedSize) :
    moveUp size m (d % unsignedSize) (s % unsignedSize) =
      (m.store d (m.load s size), (d + size) % unsignedSize) := by
  induction size generalizing m d s with
  | zero => rw [moveUp, Memory.load, range_zero, map_nil, Memory.store_nil, Nat.add_zero]
  | succ size ih =>
    have hd' : d % unsignedSize = d := Nat.mod_eq_of_lt (by omega)
    have hs' : s % unsignedSize = s := Nat.mod_eq_of_lt (by omega)
    rw [moveUp, increment_mod (by omega), increment_mod (by omega), hd', hs', update_eq_store,
      ih (by omega) (by omega)]
    have hread : (m.store d [m s]).load (s + 1) size = m.load (s + 1) size := by
      refine Memory.load_congr fun k _ => Memory.store_of_lt (.inr ?_)
      rw [length_singleton]
      omega
    have hload : m.load s (size + 1) = [m s] ++ m.load (s + 1) size := by
      rw [Nat.add_comm size 1, Memory.load_add, Memory.load_one]
    rw [hread, hload, Memory.store_append, length_singleton]
    congr 2
    omega

/-- **Downwards**, to a higher address. -/
theorem moveDown_eq (hsd : s ≤ d) (hd : d + size ≤ unsignedSize) :
    moveDown size m ((d + size) % unsignedSize) ((s + size) % unsignedSize) =
      (m.store d (m.load s size), d % unsignedSize) := by
  induction size generalizing m with
  | zero => rw [moveDown, Memory.load, range_zero, map_nil, Memory.store_nil, Nat.add_zero]
  | succ size ih =>
    have hd' : (d + size) % unsignedSize = d + size := Nat.mod_eq_of_lt (by omega)
    have hs' : (s + size) % unsignedSize = s + size := Nat.mod_eq_of_lt (by omega)
    have hdec : decrement ((d + (size + 1)) % unsignedSize) = (d + size) % unsignedSize :=
      decrement_mod (d := d + size) (by omega)
    have hdec' : decrement ((s + (size + 1)) % unsignedSize) = (s + size) % unsignedSize :=
      decrement_mod (d := s + size) (by omega)
    rw [moveDown, hdec, hdec', ih (by omega), hd', hs', update_eq_store]
    have hread : (m.store (d + size) [m (s + size)]).load s size = m.load s size := by
      refine Memory.load_congr fun k hk => Memory.store_of_lt (.inl ?_)
      omega
    have hlen : (m.load s size).length = size := Memory.length_load _ _ _
    have hcomm : (m.store (d + size) [m (s + size)]).store d (m.load s size) =
        (m.store d (m.load s size)).store (d + size) [m (s + size)] :=
      Memory.store_comm (.inr (Nat.le_of_eq (by rw [hlen])))
    rw [hread, hcomm, Memory.load_add, Memory.store_append, hlen, Memory.load_one]

/-- **What `memmove` does**: the bytes are copied, nothing else changes, and the pointer it
returns is the destination or, upwards, the byte behind it. -/
theorem memmove_eq (hd : d + size ≤ unsignedSize) (hs : s + size ≤ unsignedSize)
    (hd' : d < unsignedSize) (hs' : s < unsignedSize) (hassert : d ≠ 0 ∧ s ≠ 0 ∨ size = 0) :
    memmove m d s size = some (m.store d (m.load s size),
      if d < s then (d + size) % unsignedSize else d) := by
  have hmod : d % unsignedSize = d := Nat.mod_eq_of_lt hd'
  have hmod' : s % unsignedSize = s := Nat.mod_eq_of_lt hs'
  rw [memmove, assert_of (hassert.imp_left And.left), assert_of (hassert.imp_left And.right)]
  by_cases hds : d < s
  · have hup := moveUp_eq (m := m) hds hs
    rw [hmod, hmod'] at hup
    simp only [some_bind, if_pos hds, hup]
  · have hdown := moveDown_eq (m := m) (Nat.le_of_not_lt hds) hd
    rw [hmod] at hdown
    simp only [some_bind, if_neg hds, hdown]

/-- **`memmove` copies, and returns the destination if and only if it copies downwards or
nothing.**  The pointers are not null, unless nothing is copied. -/
theorem memmove_iff (m : Memory) (dst src size : Nat) (hdst : dst + size ≤ unsignedSize)
    (hsrc : src + size ≤ unsignedSize) (hdst' : dst < unsignedSize) (hsrc' : src < unsignedSize) :
    (dst ≠ 0 ∧ src ≠ 0 ∨ size = 0 → ∃ m' r, memmove m dst src size = some (m', r) ∧
      m'.load dst size = m.load src size ∧ ∀ x, ¬(dst ≤ x ∧ x < dst + size) → m' x = m x) ∧
    ((∃ m', memmove m dst src size = some (m', dst) ∧ m'.load dst size = m.load src size ∧
        ∀ x, ¬(dst ≤ x ∧ x < dst + size) → m' x = m x) ↔
      dst ≠ 0 ∧ src ≠ 0 ∧ src ≤ dst ∨ size = 0) := by
  have hlen : (m.load src size).length = size := Memory.length_load _ _ _
  have hload : (m.store dst (m.load src size)).load dst size = m.load src size := by
    have h := Memory.load_store m dst (m.load src size)
    rwa [hlen] at h
  have hframe : ∀ x, ¬(dst ≤ x ∧ x < dst + size) → m.store dst (m.load src size) x = m x :=
    fun x hx => Memory.store_of_lt (by rw [hlen]; omega)
  refine ⟨fun h => ⟨_, _, memmove_eq hdst hsrc hdst' hsrc' h, hload, hframe⟩, ?_, ?_⟩
  · rintro ⟨m', hcode, -, -⟩
    by_cases hassert : dst ≠ 0 ∧ src ≠ 0 ∨ size = 0
    · rw [memmove_eq hdst hsrc hdst' hsrc' hassert, Option.some.injEq, Prod.mk.injEq] at hcode
      have hret := hcode.2
      split at hret
      · unfold unsignedSize at *
        omega
      · omega
    · -- an assertion fails
      have hnone : memmove m dst src size = none := by
        rw [memmove]
        by_cases h0 : dst ≠ 0 ∨ size = 0
        · have h1 : ¬(src ≠ 0 ∨ size = 0) := by omega
          rw [assert_of h0, assert, if_neg h1]
          rfl
        · rw [assert, if_neg h0]
          rfl
      rw [hnone] at hcode
      cases hcode
  · intro h
    have hassert : dst ≠ 0 ∧ src ≠ 0 ∨ size = 0 := h.imp_left fun h => ⟨h.1, h.2.1⟩
    refine ⟨_, (memmove_eq hdst hsrc hdst' hsrc' hassert).trans ?_, hload, hframe⟩
    split
    · obtain rfl : size = 0 := by omega
      rw [Nat.add_zero, Nat.mod_eq_of_lt hdst']
    · rfl

/-- Bytes that overlap are moved to a higher address. -/
theorem memmove_iff_down :
    ∃ m', memmove (fun x => BitVec.ofNat 8 x) 4097 4096 3 = some (m', 4097) ∧
      m'.load 4097 3 = Memory.load (fun x => BitVec.ofNat 8 x) 4096 3 ∧
      ∀ x, ¬(4097 ≤ x ∧ x < 4097 + 3) → m' x = BitVec.ofNat 8 x :=
  (memmove_iff (fun x => BitVec.ofNat 8 x) 4097 4096 3 (by decide) (by decide) (by decide)
    (by decide)).2.mpr (.inl (by decide))

/-- **Moved to a lower address, the pointer that is returned is not the destination.** -/
theorem memmove_returns_end :
    (memmove (fun x => BitVec.ofNat 8 x) 4096 4097 1).map Prod.snd = some 4097 := by
  decide

end StringOps
end Pintos
