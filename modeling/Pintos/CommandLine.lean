import Pintos.CString

/-!
# The kernel command line

`read_command_line` of `threads/init.c`.  The loader leaves a number of arguments and an area of
`LOADER_ARGS_LEN` bytes with that many strings, one behind the other.  The function stores a
pointer to each in `argv` and a null pointer behind them; it panics when it has to store a pointer
that is not in the area any more.  `argv` has `LOADER_ARGS_LEN / 2 + 1` elements.

The model keeps the stores to `argv` with their indices, in order, so that an index outside the
array can be seen.  What is printed behind them is left out.

The test against the end of the area allows one string for each byte, and the number of arguments
is an `int`.  **The stores stay in the array exactly when** the number is not negative and at most
64, or the panic comes before the array is left (`readCommandLine_in_bounds_iff`).
-/

namespace Pintos
open List
namespace CommandLine

/-- `LOADER_ARGS_LEN`. -/
def loaderArgsLen : Nat := 128

/-- `ptov (LOADER_ARGS)`. -/
def loaderArgs : Nat := 0xc0007d3e

/-- `ptov (LOADER_ARG_CNT)`. -/
def loaderArgCnt : Nat := 0xc0007d3a

/-- `end`. -/
def argsEnd : Nat := loaderArgs + loaderArgsLen

/-- The number of elements of `argv`. -/
def argvSize : Nat := loaderArgsLen / 2 + 1

/-- The loop of `strnlen`, with what is left of `maxlen`. -/
def strnlenLoop (m : Memory) (string : Nat) : Nat → Nat → Nat
  | 0, length => length
  | left + 1, length =>
    if m (string + length) ≠ 0 then strnlenLoop m string left (length + 1) else length

/-- `strnlen`. -/
def strnlen (m : Memory) (string maxlen : Nat) : Nat :=
  strnlenLoop m string maxlen 0

/-- The value of `argc`, an `int`. -/
def argc (m : Memory) : Int :=
  (BitVec.ofNat 32 (m.word loaderArgCnt)).toInt

/-- The loop, for as many arguments as are left: the stores to `argv`, and whether it panics. -/
def argLoop (m : Memory) : Nat → Nat → Nat → List (Int × Option Nat) × Bool
  | 0, _, _ => ([], false)
  | left + 1, i, p =>
    if p ≥ argsEnd then
      ([], true)
    else
      let (stores, panic) := argLoop m left (i + 1) (p + (strnlen m p (argsEnd - p) + 1))
      ((i, some p) :: stores, panic)

/-- What `read_command_line` does: the stores to `argv`, and the message of its panic. -/
structure Outcome where
  stores : List (Int × Option Nat)
  panic : Option String

/-- `read_command_line`. -/
def readCommandLine (m : Memory) : Outcome :=
  let (stores, panic) := argLoop m (argc m).toNat 0 loaderArgs
  if panic then
    ⟨stores, some "command line arguments overflow"⟩
  else
    ⟨stores ++ [(argc m, none)], none⟩

/-! ## Strings in the area -/

/-- The string at `q` follows the terminator of the string at `p`. -/
def Follows (m : Memory) (p q : Nat) : Prop :=
  ∃ n, q = p + n + 1 ∧ (∀ k, k < n → m (p + k) ≠ 0) ∧ m (p + n) = 0

/-- Pointers to the first so many strings of the area. -/
structure Split (m : Memory) (cnt : Int) (pointers : List Nat) : Prop where
  count : (pointers.length : Int) = cnt
  inside : ∀ p ∈ pointers, loaderArgs ≤ p ∧ p < argsEnd
  first : ∀ p, pointers.head? = some p → p = loaderArgs
  follows : pointers.IsChain (Follows m)

/-- Pointers stored in consecutive elements. -/
def stored (i : Nat) (pointers : List Nat) : List (Int × Option Nat) :=
  (pointers.zipIdx i).map fun (p, j) => ((j : Int), some p)

/-- The number of strings that begin in the area from `p` on: one at `p`, and one behind each
terminator but the last byte. -/
def stringCnt (m : Memory) (p : Nat) : Nat :=
  if p < argsEnd then (m.load p (argsEnd - 1 - p)).count 0 + 1 else 0

section Loop
variable {m : Memory} {p : Nat}

theorem strnlenLoop_spec (m : Memory) (string left length : Nat) :
    ∃ n, strnlenLoop m string left length = length + n ∧ n ≤ left ∧
      (∀ k, k < n → m (string + length + k) ≠ 0) ∧ (n < left → m (string + length + n) = 0) := by
  induction left generalizing length with
  | zero => exact ⟨0, rfl, Nat.le_refl 0, fun k hk => absurd hk (Nat.not_lt_zero k),
      fun h => absurd h (Nat.lt_irrefl 0)⟩
  | succ left ih =>
    rw [strnlenLoop]
    by_cases hbyte : m (string + length) ≠ 0
    · obtain ⟨n, hcode, hle, hne, hend⟩ := ih (length + 1)
      refine ⟨n + 1, ?_, Nat.succ_le_succ hle, fun k hk => ?_, fun h => ?_⟩
      · rw [if_pos hbyte, hcode, Nat.add_assoc, Nat.add_comm 1]
      · cases k with
        | zero => exact hbyte
        | succ k =>
          rw [show string + length + (k + 1) = string + (length + 1) + k by omega]
          exact hne k (Nat.lt_of_succ_lt_succ hk)
      · rw [show string + length + (n + 1) = string + (length + 1) + n by omega]
        exact hend (Nat.lt_of_succ_lt_succ h)
    · refine ⟨0, if_neg hbyte, Nat.zero_le _, fun k hk => absurd hk (Nat.not_lt_zero k), fun _ => ?_⟩
      exact not_not.mp hbyte

/-- **What `strnlen` returns**: where the terminator is, or `maxlen`. -/
theorem strnlen_spec (m : Memory) (string maxlen : Nat) :
    strnlen m string maxlen ≤ maxlen ∧ (∀ k, k < strnlen m string maxlen → m (string + k) ≠ 0) ∧
      (strnlen m string maxlen < maxlen → m (string + strnlen m string maxlen) = 0) := by
  obtain ⟨n, hcode, hle, hne, hend⟩ := strnlenLoop_spec m string maxlen 0
  rw [Nat.zero_add] at hcode
  rw [strnlen, hcode]
  exact ⟨hle, hne, hend⟩

/-- Bytes among which there is no terminator. -/
theorem count_load_of_ne {n : Nat} (hne : ∀ k, k < n → m (p + k) ≠ 0) : (m.load p n).count 0 = 0 := by
  refine count_eq_zero.mpr fun hmem => ?_
  obtain ⟨k, hk, hbyte⟩ := mem_map.mp hmem
  exact hne k (mem_range.mp hk) hbyte

/-- The string at `p` is one, and the others begin behind it. -/
theorem stringCnt_of_lt (hp : p < argsEnd) :
    stringCnt m p = stringCnt m (p + (strnlen m p (argsEnd - p) + 1)) + 1 := by
  obtain ⟨hle, hne, hend⟩ := strnlen_spec m p (argsEnd - p)
  generalize strnlen m p (argsEnd - p) = n at hle hne hend ⊢
  rw [stringCnt, if_pos hp, stringCnt]
  by_cases hlast : p + (n + 1) < argsEnd
  · have hsplit : argsEnd - 1 - p = n + (1 + (argsEnd - 1 - (p + (n + 1)))) := by omega
    rw [if_pos hlast, hsplit, Memory.load_add, Memory.load_add, Memory.load_one,
      count_append, count_append, count_load_of_ne hne, hend (by omega),
      count_singleton_self, Nat.add_assoc p n 1]
    omega
  · rw [if_neg hlast, count_load_of_ne fun k hk => hne k (by omega)]

theorem stored_cons (i : Nat) (p : Nat) (pointers : List Nat) :
    stored i (p :: pointers) = ((i : Int), some p) :: stored (i + 1) pointers :=
  rfl

/-- **The loop** stores pointers to one string after the other, as many as it is told, and panics
when there are not that many. -/
theorem argLoop_spec (m : Memory) (left i : Nat) (p : Nat) :
    ∃ pointers, argLoop m left i p = (stored i pointers, decide (stringCnt m p < left)) ∧
      pointers.length = min left (stringCnt m p) ∧ (∀ q ∈ pointers, p ≤ q ∧ q < argsEnd) ∧
      (∀ q, pointers.head? = some q → q = p) ∧ pointers.IsChain (Follows m) := by
  induction left generalizing i p with
  | zero =>
    refine ⟨[], rfl, (Nat.zero_min _).symm, forall_mem_nil _, ?_, .nil⟩
    exact fun q hq => absurd hq (by simp)
  | succ left ih =>
    rw [argLoop]
    by_cases hp : p ≥ argsEnd
    · have hcnt : stringCnt m p = 0 := if_neg (Nat.not_lt.mpr hp)
      refine ⟨[], ?_, ?_, forall_mem_nil _, ?_, .nil⟩
      · rw [if_pos hp, hcnt]
        rfl
      · rw [hcnt, Nat.min_zero, length_nil]
      · exact fun q hq => absurd hq (by simp)
    · obtain ⟨hle, hne, hend⟩ := strnlen_spec m p (argsEnd - p)
      obtain ⟨pointers, hloop, hlen, hinside, hfirst, hchain⟩ :=
        ih (i + 1) (p + (strnlen m p (argsEnd - p) + 1))
      have hcnt := stringCnt_of_lt (m := m) (Nat.not_le.mp hp)
      refine ⟨p :: pointers, ?_, ?_, ?_, fun q hq => (Option.some.inj hq).symm, ?_⟩
      · rw [if_neg hp, hloop, stored_cons, hcnt]
        simp only [Nat.succ_lt_succ_iff]
      · rw [length_cons, hlen, hcnt, Nat.succ_min_succ]
      · refine forall_mem_cons.mpr ⟨⟨Nat.le_refl p, Nat.not_le.mp hp⟩, fun q hq => ?_⟩
        exact ⟨Nat.le_trans (Nat.le_add_right _ _) (hinside q hq).1, (hinside q hq).2⟩
      · cases pointers with
        | nil => exact .singleton p
        | cons q pointers =>
          -- the next string begins in the area, so this one has a terminator there
          have hq := hfirst q rfl
          have hbound := (hinside q mem_cons_self).2
          exact .cons_cons ⟨_, by rw [hq, Nat.add_assoc], hne, hend (by omega)⟩ hchain

end Loop

/-! ## The bounds of `argv` -/

/-- What the function is to do: panic, or store the pointers and a null pointer; and store nothing
outside the array. -/
def InBounds (m : Memory) : Prop :=
  ((readCommandLine m).panic ≠ none ∨ ∃ pointers, Split m (argc m) pointers ∧
    (readCommandLine m).stores = stored 0 pointers ++ [(argc m, none)]) ∧
  ∀ w ∈ (readCommandLine m).stores, 0 ≤ w.1 ∧ w.1 < argvSize

section Bounds
variable {m : Memory}

theorem stored_in_bounds {pointers : List Nat} :
    (∀ w ∈ stored 0 pointers, 0 ≤ w.1 ∧ w.1 < argvSize) ↔ pointers.length ≤ argvSize := by
  constructor
  · intro h
    by_contra hlong
    have hlt : argvSize < pointers.length := Nat.not_le.mp hlong
    have hmem : ((argvSize : Int), some (pointers.get ⟨argvSize, hlt⟩)) ∈ stored 0 pointers :=
      mem_map.mpr ⟨(pointers.get ⟨argvSize, hlt⟩, argvSize), by
        rw [mem_zipIdx_iff_getElem?]; exact getElem?_eq_getElem hlt, rfl⟩
    exact absurd (h _ hmem).2 (Int.lt_irrefl _)
  · intro hlen w hw
    obtain ⟨⟨p, j⟩, hmem, rfl⟩ := mem_map.mp hw
    have hj := (mem_zipIdx hmem).2.1
    simp only
    omega

/-- **The stores stay in `argv` exactly when** the number of arguments is not negative, and it is
at most 64, or the area has fewer strings and those are at most 65. -/
theorem readCommandLine_in_bounds_iff (m : Memory) :
    InBounds m ↔ 0 ≤ argc m ∧ (argc m ≤ 64 ∨
      (stringCnt m loaderArgs : Int) < argc m ∧ stringCnt m loaderArgs ≤ 65) := by
  obtain ⟨pointers, hloop, hlen, hinside, hfirst, hchain⟩ :=
    argLoop_spec m (argc m).toNat 0 loaderArgs
  have hsize : argvSize = 65 := rfl
  by_cases hpanic : stringCnt m loaderArgs < (argc m).toNat
  · -- the panic, behind a store for each string of the area
    have hcode : readCommandLine m
        = ⟨stored 0 pointers, some "command line arguments overflow"⟩ := by
      rw [readCommandLine, hloop, decide_eq_true hpanic]
      rfl
    rw [InBounds, hcode, stored_in_bounds, hlen, Nat.min_eq_right (Nat.le_of_lt hpanic), hsize]
    simp only [ne_eq, reduceCtorEq, not_false_eq_true, true_or, true_and]
    omega
  · have hcode : readCommandLine m = ⟨stored 0 pointers ++ [(argc m, none)], none⟩ := by
      rw [readCommandLine, hloop, decide_eq_false hpanic]
      rfl
    rw [Nat.min_eq_left (Nat.not_lt.mp hpanic)] at hlen
    rw [InBounds, hcode, forall_mem_append, stored_in_bounds, hlen, hsize]
    simp only [ne_eq, not_true_eq_false, false_or, mem_singleton, forall_eq]
    constructor
    · rintro ⟨-, -, hnonneg, hlt⟩
      exact ⟨hnonneg, .inl (by omega)⟩
    · rintro ⟨hnonneg, hbound⟩
      refine ⟨⟨pointers, ⟨?_, hinside, hfirst, hchain⟩, rfl⟩, by omega, hnonneg, by omega⟩
      rw [hlen, Int.toNat_of_nonneg hnonneg]

end Bounds

/-- An area of empty strings, and 66 arguments: element 65 and element 66 are written. -/
theorem empty_arguments_out_of_bounds :
    let m : Memory := fun x => if x = loaderArgCnt then 66 else 0
    ¬InBounds m ∧ (readCommandLine m).panic = none ∧
      (65, some (loaderArgs + 65)) ∈ (readCommandLine m).stores ∧
      (66, none) ∈ (readCommandLine m).stores := by
  intro m
  have hmem : (readCommandLine m).panic = none ∧
      (65, some (loaderArgs + 65)) ∈ (readCommandLine m).stores ∧
      (66, none) ∈ (readCommandLine m).stores := by
    decide +kernel
  refine ⟨fun h => ?_, hmem⟩
  exact absurd (h.2 _ hmem.2.2).2 (by decide)

end CommandLine
end Pintos
