import Mathlib.Data.List.Basic
import Mathlib.Order.Bounds.Basic
import Pintos.Basic

/-!
# Bitmaps

`lib/kernel/bitmap.c`.  From the outside a bitmap is an array of `bit_cnt` booleans; from
the inside it is an array of 32-bit words, of which the last may have unused bits with
anything in them.

The functions below work on the words as the code does.  Each is first described by what
it does to single bits (`bit`), wherever in the words these are: `bitmap_mark`,
`bitmap_reset` and `bitmap_flip` change one bit and no other, and every other function is
a loop over these and over `bitmap_test`.  From there **the words behave as an array of
booleans** (`behaves_as_array`), for every series of calls with arguments in range.

`bitmap_scan` returns `BITMAP_ERROR`, the largest `size_t`, when it finds nothing.  On a
bitmap with that many bits this is also the place where an empty run at the very end
begins (`scan_finds_error`).
-/

namespace Pintos
open List

/-- `BITMAP_ERROR`, which is `SIZE_MAX`. -/
def bitmapError : Nat := 4294967295

/-- `struct bitmap`.  There are words enough for every bit. -/
structure Bitmap where
  bitCnt : Nat
  bits : List (BitVec 32)
  bitCnt_lt : bitCnt < unsignedSize
  covers : bitCnt ≤ 32 * bits.length
  deriving DecidableEq

namespace Bitmap

/-- `elem_idx`. -/
def elemIdx (bitIdx : Nat) : Nat :=
  bitIdx / 32

/-- `bit_mask`. -/
def bitMask (bitIdx : Nat) : BitVec 32 :=
  1#32 <<< (bitIdx % 32)

/-- The bitmap with the word a bit is in changed. -/
def modified (b : Bitmap) (bitIdx : Nat) (f : BitVec 32 → BitVec 32) : Bitmap :=
  { b with
    bits := b.bits.modify (elemIdx bitIdx) f
    covers := by rw [length_modify]; exact b.covers }

/-- Changes the word a bit is in; there is nothing to change beyond the last word. -/
def modifyWord (b : Bitmap) (bitIdx : Nat) (f : BitVec 32 → BitVec 32) : Option Bitmap := do
  assert (elemIdx bitIdx < b.bits.length)
  some (b.modified bitIdx f)

/-- `bitmap_mark`. -/
def mark (b : Bitmap) (bitIdx : Nat) : Option Bitmap :=
  b.modifyWord bitIdx (· ||| bitMask bitIdx)

/-- `bitmap_reset`. -/
def reset (b : Bitmap) (bitIdx : Nat) : Option Bitmap :=
  b.modifyWord bitIdx (· &&& ~~~bitMask bitIdx)

/-- `bitmap_flip`. -/
def flip (b : Bitmap) (bitIdx : Nat) : Option Bitmap :=
  b.modifyWord bitIdx (· ^^^ bitMask bitIdx)

/-- `bitmap_set`. -/
def set (b : Bitmap) (idx : Nat) (value : Bool) : Option Bitmap := do
  assert (idx < b.bitCnt)
  if value then b.mark idx else b.reset idx

/-- `bitmap_test`. -/
def test (b : Bitmap) (idx : Nat) : Option Bool := do
  assert (idx < b.bitCnt)
  let word ← b.bits[elemIdx idx]?
  some (word &&& bitMask idx != 0#32)

/-- What `bitmap_set_multiple`, `bitmap_count` and `bitmap_contains` assert. -/
def assertRange (b : Bitmap) (start cnt : Nat) : Option Unit := do
  assert (start ≤ b.bitCnt)
  assert ((start + cnt) % unsignedSize ≤ b.bitCnt)

/-- `bitmap_set_multiple`. -/
def setMultiple (b : Bitmap) (start cnt : Nat) (value : Bool) : Option Bitmap := do
  b.assertRange start cnt
  (List.range cnt).foldlM (fun b i => b.set ((start + i) % unsignedSize) value) b

/-- `bitmap_set_all`. -/
def setAll (b : Bitmap) (value : Bool) : Option Bitmap :=
  b.setMultiple 0 b.bitCnt value

/-- `elem_cnt`. -/
def elemCnt (bitCnt : Nat) : Nat :=
  divRoundUp bitCnt 32

/-- `byte_cnt`. -/
def byteCnt (bitCnt : Nat) : Nat :=
  4 * elemCnt bitCnt % unsignedSize

/-- `bitmap_buf_size`; `struct bitmap` itself takes 8 bytes. -/
def bufSize (bitCnt : Nat) : Nat :=
  (8 + byteCnt bitCnt) % unsignedSize

/-- `bitmap_create_in_buf`.  `words` is what the buffer holds, behind `struct bitmap`.  There
is no bitmap with so many bits that their number of words wraps. -/
def createInBuf (bitCnt : Nat) (words : Nat → BitVec 32) (blockSize : Nat) : Option Bitmap := do
  assert (blockSize ≥ bufSize bitCnt)
  if h : bitCnt < unsignedSize ∧ bitCnt ≤ 32 * elemCnt bitCnt then
    Bitmap.setAll
      { bitCnt, bits := (List.range (elemCnt bitCnt)).map words
        bitCnt_lt := h.1, covers := by simpa using h.2 } false
  else
    none

/-- `bitmap_count`. -/
def count (b : Bitmap) (start cnt : Nat) (value : Bool) : Option Nat := do
  b.assertRange start cnt
  (List.range cnt).foldlM (fun valueCnt i => do
    if (← b.test ((start + i) % unsignedSize)) = value then some (valueCnt + 1)
    else some valueCnt) 0

/-- The loop of `bitmap_contains`, over the values of `i` that are left. -/
def containsLoop (b : Bitmap) (start : Nat) (value : Bool) : List Nat → Option Bool
  | [] => some false
  | i :: rest => do
    if (← b.test ((start + i) % unsignedSize)) = value then some true
    else b.containsLoop start value rest

/-- `bitmap_contains`. -/
def contains (b : Bitmap) (start cnt : Nat) (value : Bool) : Option Bool := do
  b.assertRange start cnt
  b.containsLoop start value (List.range cnt)

/-- `bitmap_any`. -/
def any (b : Bitmap) (start cnt : Nat) : Option Bool :=
  b.contains start cnt true

/-- `bitmap_none`. -/
protected def none (b : Bitmap) (start cnt : Nat) : Option Bool := do
  some !(← b.contains start cnt true)

/-- `bitmap_all`. -/
def all (b : Bitmap) (start cnt : Nat) : Option Bool := do
  some !(← b.contains start cnt false)

/-- The loop of `bitmap_scan`, over the values of `i` that are left. -/
def scanLoop (b : Bitmap) (cnt : Nat) (value : Bool) : List Nat → Option Nat
  | [] => some bitmapError
  | i :: rest => do
    if !(← b.contains i cnt (!value)) then some i
    else b.scanLoop cnt value rest

/-- `bitmap_scan`. -/
def scan (b : Bitmap) (start cnt : Nat) (value : Bool) : Option Nat := do
  assert (start ≤ b.bitCnt)
  if cnt ≤ b.bitCnt then
    let last := b.bitCnt - cnt
    b.scanLoop cnt value (List.range' start (last + 1 - start))
  else
    some bitmapError

/-- `bitmap_scan_and_flip`. -/
def scanAndFlip (b : Bitmap) (start cnt : Nat) (value : Bool) : Option (Bitmap × Nat) := do
  let idx ← b.scan start cnt value
  if idx ≠ bitmapError then
    some (← b.setMultiple idx cnt (!value), idx)
  else
    some (b, idx)

/-! ## Single bits -/

/-- The bit at `i`, wherever it is in the words. -/
def bit (b : Bitmap) (i : Nat) : Bool :=
  (b.bits.getD (elemIdx i) 0#32).getLsbD (i % 32)

theorem getLsbD_bitMask (i j : Nat) : (bitMask j).getLsbD i = decide (i = j % 32) := by
  have hj : j % 32 < 32 := Nat.mod_lt _ (by omega)
  rw [bitMask, BitVec.getLsbD_shiftLeft, BitVec.getLsbD_one]
  by_cases h : i = j % 32
  · simp [h, hj]
  · simp [h]
    omega

/-- Two bits are the same if word and place in the word agree. -/
theorem eq_iff_elemIdx {i j : Nat} : i = j ↔ elemIdx i = elemIdx j ∧ i % 32 = j % 32 := by
  unfold elemIdx
  omega

variable {b b' : Bitmap} {idx start cnt : Nat} {value : Bool}

theorem elemIdx_lt (hidx : idx < b.bitCnt) : elemIdx idx < b.bits.length := by
  have hcovers := b.covers
  unfold elemIdx
  omega

/-- `b'` differs from `b` only in that the bit at `idx` is `v`. -/
structure SetAt (b : Bitmap) (idx : Nat) (v : Bool) (b' : Bitmap) : Prop where
  bitCnt_eq : b'.bitCnt = b.bitCnt
  bit_eq : ∀ i, b'.bit i = if i = idx then v else b.bit i

theorem bit_modified {f : BitVec 32 → BitVec 32} (hlt : elemIdx idx < b.bits.length) (i : Nat) :
    (b.modified idx f).bit i
      = if elemIdx i = elemIdx idx then (f (b.bits.getD (elemIdx idx) 0#32)).getLsbD (i % 32)
        else b.bit i := by
  simp only [bit, modified, getD_eq_getElem?_getD, getElem?_modify]
  by_cases hi : elemIdx i = elemIdx idx
  · simp [hi, getElem?_eq_getElem hlt]
  · simp [hi, Ne.symm hi]

variable {v : Bool}

/-- **A word operation that touches one place** changes one bit. -/
theorem modifyWord_spec {f : BitVec 32 → BitVec 32} (hlt : elemIdx idx < b.bits.length)
    (hself : (f (b.bits.getD (elemIdx idx) 0#32)).getLsbD (idx % 32) = v)
    (hother : ∀ i, i ≠ idx % 32 → ∀ w, (f w).getLsbD i = w.getLsbD i) :
    ∃ b', b.modifyWord idx f = some b' ∧ SetAt b idx v b' := by
  refine ⟨b.modified idx f, ?_, rfl, fun i => ?_⟩
  · rw [modifyWord, assert_of hlt]
    rfl
  rw [bit_modified hlt]
  by_cases hi : i = idx
  · simp [hi, ← hself]
  · rw [if_neg hi]
    split
    · next hword =>
      rw [hother _ fun hplace => hi (eq_iff_elemIdx.mpr ⟨hword, hplace⟩), ← hword, bit]
    · rfl

theorem mark_spec (hlt : elemIdx idx < b.bits.length) :
    ∃ b', b.mark idx = some b' ∧ SetAt b idx true b' := by
  refine modifyWord_spec hlt ?_ fun i hi w => ?_
  · simp [getLsbD_bitMask]
  · simp [getLsbD_bitMask, hi]

theorem reset_spec (hidx : idx < b.bitCnt) :
    ∃ b', b.reset idx = some b' ∧ SetAt b idx false b' := by
  refine modifyWord_spec (elemIdx_lt hidx) ?_ fun i hi w => ?_
  · simp [getLsbD_bitMask]
  · simpa [getLsbD_bitMask, hi] using fun h => BitVec.lt_of_getLsbD h

theorem flip_spec (hidx : idx < b.bitCnt) :
    ∃ b', b.flip idx = some b' ∧ SetAt b idx (!b.bit idx) b' := by
  refine modifyWord_spec (elemIdx_lt hidx) ?_ fun i hi w => ?_
  · simp [getLsbD_bitMask, bit]
  · simp [getLsbD_bitMask, hi]

theorem set_spec (hidx : idx < b.bitCnt) (value : Bool) :
    ∃ b', b.set idx value = some b' ∧ SetAt b idx value b' := by
  obtain ⟨b₁, hcode₁, hset₁⟩ := mark_spec (elemIdx_lt hidx)
  obtain ⟨b₀, hcode₀, hset₀⟩ := reset_spec hidx
  cases value
  · exact ⟨b₀, by rw [set, assert_of hidx]; exact hcode₀, hset₀⟩
  · exact ⟨b₁, by rw [set, assert_of hidx]; exact hcode₁, hset₁⟩

theorem and_bitMask (w : BitVec 32) (idx : Nat) :
    (w &&& bitMask idx != 0#32) = w.getLsbD (idx % 32) := by
  cases hbit : w.getLsbD (idx % 32) with
  | true =>
    have hne : w &&& bitMask idx ≠ 0#32 := by
      intro hzero
      have hand : (w &&& bitMask idx).getLsbD (idx % 32) = true := by
        simp [getLsbD_bitMask, hbit]
      simp [hzero] at hand
    simpa using hne
  | false =>
    have hzero : w &&& bitMask idx = 0#32 := by
      refine BitVec.eq_of_getLsbD_eq fun i _ => ?_
      by_cases hi : i = idx % 32
      · simp [getLsbD_bitMask, hi, hbit]
      · simp [getLsbD_bitMask, hi]
    simp [hzero]

theorem test_spec (hidx : idx < b.bitCnt) : b.test idx = some (b.bit idx) := by
  have hword : b.bits[elemIdx idx]? = some (b.bits.getD (elemIdx idx) 0#32) := by
    rw [getD_eq_getElem?_getD, getElem?_eq_getElem (elemIdx_lt hidx), Option.getD_some]
  rw [test, assert_of hidx, hword]
  simp only [some_bind, and_bitMask, bit]

/-! ## Loops over bits -/

theorem assertRange_of (hrange : start + cnt ≤ b.bitCnt) : b.assertRange start cnt = some () := by
  have hlt := b.bitCnt_lt
  have hmod : (start + cnt) % unsignedSize ≤ b.bitCnt := by
    rwa [Nat.mod_eq_of_lt (by omega)]
  rw [assertRange, assert_of (by omega), assert_of hmod]
  rfl

/-- `b'` differs from `b` only in that the bits in a range are `v`. -/
structure SetRange (b : Bitmap) (start cnt : Nat) (v : Bool) (b' : Bitmap) : Prop where
  bitCnt_eq : b'.bitCnt = b.bitCnt
  bit_eq : ∀ i, b'.bit i = if start ≤ i ∧ i < start + cnt then v else b.bit i

section
variable (hrange : start + cnt ≤ b.bitCnt) (value : Bool)
include hrange

/-- **The loop of `bitmap_set_multiple`**, one bit further at a time. -/
theorem setLoop_spec :
    ∃ b', (List.range cnt).foldlM (fun b i => b.set ((start + i) % unsignedSize) value) b
      = some b' ∧ SetRange b start cnt value b' := by
  have hlt := b.bitCnt_lt
  induction cnt with
  | zero => exact ⟨b, rfl, rfl, fun i => by rw [if_neg (by omega)]⟩
  | succ cnt ih =>
    obtain ⟨b₁, hcode₁, hrange₁⟩ := ih (by omega)
    have hidx : start + cnt < b₁.bitCnt := by rw [hrange₁.bitCnt_eq]; omega
    obtain ⟨b₂, hcode₂, hset₂⟩ := set_spec hidx value
    refine ⟨b₂, ?_, hset₂.bitCnt_eq.trans hrange₁.bitCnt_eq, fun i => ?_⟩
    · rw [range_succ, foldlM_append, hcode₁]
      simp only [some_bind, foldlM_cons, foldlM_nil, Nat.mod_eq_of_lt (show start + cnt <
        unsignedSize by omega), hcode₂]
      rfl
    · rw [hset₂.bit_eq, hrange₁.bit_eq]
      by_cases hi : i = start + cnt
      · rw [if_pos hi, if_pos (by omega)]
      · rw [if_neg hi]
        by_cases hin : start ≤ i ∧ i < start + cnt
        · rw [if_pos hin, if_pos (by omega)]
        · rw [if_neg hin, if_neg (by omega)]

theorem setMultiple_spec :
    ∃ b', b.setMultiple start cnt value = some b' ∧ SetRange b start cnt value b' := by
  obtain ⟨b', hcode, hset⟩ := setLoop_spec hrange value
  exact ⟨b', by rw [setMultiple, assertRange_of hrange]; exact hcode, hset⟩

theorem count_spec :
    b.count start cnt value
      = some ((List.range cnt).countP fun i => b.bit (start + i) == value) := by
  have hlt := b.bitCnt_lt
  rw [count, assertRange_of hrange, some_bind]
  induction cnt with
  | zero => rfl
  | succ cnt ih =>
    have htest : b.test (start + cnt) = some (b.bit (start + cnt)) := test_spec (by omega)
    rw [range_succ, foldlM_append, ih (by omega), countP_append]
    simp only [some_bind, foldlM_cons, foldlM_nil, Nat.mod_eq_of_lt (show start + cnt <
      unsignedSize by omega), htest]
    by_cases hbit : b.bit (start + cnt) = value
    · simp [hbit]
    · simp [hbit]

theorem containsLoop_spec {is : List Nat}
    (his : ∀ i ∈ is, i < cnt) :
    b.containsLoop start value is = some (is.any fun i => b.bit (start + i) == value) := by
  have hlt := b.bitCnt_lt
  induction is with
  | nil => rfl
  | cons i is ih =>
    have hi : i < cnt := his i (by simp)
    have htest : b.test (start + i) = some (b.bit (start + i)) := test_spec (by omega)
    rw [containsLoop, Nat.mod_eq_of_lt (show start + i < unsignedSize by omega), htest,
      ih fun j hj => his j (by simp [hj])]
    by_cases hbit : b.bit (start + i) = value
    · simp [hbit]
    · simp [hbit]

theorem contains_spec :
    b.contains start cnt value
      = some ((List.range cnt).any fun i => b.bit (start + i) == value) := by
  rw [contains, assertRange_of hrange]
  exact containsLoop_spec hrange value fun i hi => mem_range.mp hi

end

/-- A new bitmap has no bit set. -/
theorem createInBuf_spec {bitCnt blockSize : Nat} (words : Nat → BitVec 32)
    (hcnt : bitCnt + 31 < unsignedSize) (hsize : bufSize bitCnt ≤ blockSize) :
    ∃ b, createInBuf bitCnt words blockSize = some b ∧ b.bitCnt = bitCnt ∧
      ∀ i, i < bitCnt → b.bit i = false := by
  have hcovers : bitCnt < unsignedSize ∧ bitCnt ≤ 32 * elemCnt bitCnt := by
    rw [elemCnt, divRoundUp, Nat.mod_eq_of_lt (by omega)]
    omega
  rw [createInBuf, assert_of hsize]
  simp only [some_bind, dif_pos hcovers, setAll]
  obtain ⟨b, hcode, hset⟩ := setMultiple_spec
    (b := ⟨bitCnt, (List.range (elemCnt bitCnt)).map words, hcovers.1, by simpa using hcovers.2⟩)
    (Nat.le_of_eq (Nat.zero_add bitCnt)) false
  refine ⟨b, hcode, hset.bitCnt_eq, fun i hi => ?_⟩
  rw [hset.bit_eq, if_pos (by omega)]

/-- All bits from `i` on are `value`, as many as asked for. -/
def runAt (b : Bitmap) (cnt : Nat) (value : Bool) (i : Nat) : Bool :=
  (List.range cnt).all fun j => b.bit (i + j) == value

/-- A run is what has no bit of the other value in it. -/
theorem not_contains_eq {i : Nat} (hrange : i + cnt ≤ b.bitCnt) (value : Bool) :
    b.contains i cnt (!value) = some !b.runAt cnt value i := by
  rw [contains_spec hrange, runAt, not_all_eq_any_not]
  congr 2
  funext j
  cases b.bit (i + j) <;> cases value <;> rfl

/-- The loop of `bitmap_scan` returns the first place where a run begins. -/
theorem scanLoop_spec (value : Bool) {is : List Nat} (his : ∀ i ∈ is, i + cnt ≤ b.bitCnt) :
    b.scanLoop cnt value is = some ((is.find? (b.runAt cnt value)).getD bitmapError) := by
  induction is with
  | nil => rfl
  | cons i is ih =>
    rw [scanLoop, not_contains_eq (his i (by simp)), ih fun j hj => his j (by simp [hj])]
    cases hrun : b.runAt cnt value i <;> simp [hrun]

/-! ## The array of booleans -/

/-- **The array a bitmap stands for.** -/
def toList (b : Bitmap) : List Bool :=
  (List.range b.bitCnt).map b.bit

@[simp] theorem length_toList (b : Bitmap) : b.toList.length = b.bitCnt := by
  simp [toList]

theorem getElem?_toList {i : Nat} (hi : i < b.bitCnt) : b.toList[i]? = some (b.bit i) := by
  simp [toList, hi]

/-- The array is known by its length and its bits. -/
theorem toList_eq {a : List Bool} (hlen : b.bitCnt = a.length)
    (hbits : ∀ i, i < b.bitCnt → a[i]? = some (b.bit i)) : b.toList = a := by
  refine ext_getElem? fun i => ?_
  by_cases hi : i < b.bitCnt
  · rw [getElem?_toList hi, hbits i hi]
  · rw [getElem?_eq_none (by simpa using hi), getElem?_eq_none (by omega)]

/-- The part of the array a loop looks at. -/
theorem slice_toList (hrange : start + cnt ≤ b.bitCnt) :
    (b.toList.drop start).take cnt = (List.range cnt).map fun i => b.bit (start + i) := by
  refine ext_getElem? fun i => ?_
  by_cases hi : i < cnt
  · rw [getElem?_take_of_lt hi, getElem?_drop, getElem?_toList (by omega)]
    simp [hi]
  · rw [getElem?_eq_none (by simp; omega), getElem?_eq_none (by simp; omega)]

/-- The array with a range of it filled. -/
def fill (a : List Bool) (start cnt : Nat) (v : Bool) : List Bool :=
  a.take start ++ List.replicate cnt v ++ a.drop (start + cnt)

theorem SetAt.toList_eq (hidx : idx < b.bitCnt) (hset : SetAt b idx v b') :
    b'.toList = b.toList.set idx v := by
  refine Bitmap.toList_eq (by simp [hset.bitCnt_eq]) fun i hi => ?_
  rw [hset.bit_eq, getElem?_set]
  rw [hset.bitCnt_eq] at hi
  by_cases h : i = idx
  · simp [h, hidx]
  · simp [h, Ne.symm h, getElem?_toList hi]

theorem SetRange.toList_eq (hrange : start + cnt ≤ b.bitCnt) (hset : SetRange b start cnt v b') :
    b'.toList = fill b.toList start cnt v := by
  have hlen : (b.toList.take start ++ List.replicate cnt v).length = start + cnt := by
    simp
    omega
  refine Bitmap.toList_eq (by simp [fill, hset.bitCnt_eq]; omega) fun i hi => ?_
  rw [hset.bitCnt_eq] at hi
  rw [hset.bit_eq, fill]
  by_cases hend : i < start + cnt
  · rw [getElem?_append_left (by omega)]
    by_cases hstart : i < start
    · rw [getElem?_append_left (by simp; omega), getElem?_take_of_lt hstart,
        getElem?_toList hi, if_neg (by omega)]
    · rw [getElem?_append_right (by simp; omega), if_pos (by omega),
        getElem?_replicate_of_lt (by simp; omega)]
  · rw [getElem?_append_right (by omega), hlen, getElem?_drop, if_neg (by omega),
      getElem?_toList (by omega)]
    congr 2
    omega

/-- A run of `cnt` times `v` in the array, from `i` on. -/
def IsRun (a : List Bool) (i cnt : Nat) (v : Bool) : Prop :=
  i + cnt ≤ a.length ∧ ∀ j, j < cnt → a[i + j]? = some v

theorem isRun_toList {i : Nat} (hrange : i + cnt ≤ b.bitCnt) (v : Bool) :
    IsRun b.toList i cnt v ↔ b.runAt cnt v i = true := by
  have hbits : ∀ j, j < cnt → (b.toList[i + j]? = some v ↔ b.bit (i + j) = v) := by
    intro j hj
    rw [getElem?_toList (by omega), Option.some.injEq]
  simp only [IsRun, length_toList, hrange, true_and, runAt, all_eq_true, mem_range,
    beq_iff_eq]
  exact forall₂_congr hbits

/-- **What a scan returns**: the beginning of the first run, and `BITMAP_ERROR` if there
is none.  It tells the two apart but for an empty run at the end of the largest bitmap. -/
structure ScanResult (a : List Bool) (start cnt : Nat) (v : Bool) (r : Nat) : Prop where
  least : (∃ i, start ≤ i ∧ IsRun a i cnt v) → IsLeast {i | start ≤ i ∧ IsRun a i cnt v} r
  error : (¬∃ i, start ≤ i ∧ IsRun a i cnt v) → r = bitmapError
  error_iff : cnt ≠ 0 ∨ start ≠ bitmapError →
    (r = bitmapError ↔ ¬∃ i, start ≤ i ∧ IsRun a i cnt v)

theorem ScanResult.of_none {a : List Bool} (hno : ¬∃ i, start ≤ i ∧ IsRun a i cnt v) :
    ScanResult a start cnt v bitmapError :=
  ⟨fun hex => absurd hex hno, fun _ => rfl, fun _ => ⟨fun _ => hno, fun _ => rfl⟩⟩

theorem ScanResult.of_least {a : List Bool} {r : Nat} (hlen : a.length < unsignedSize)
    (hstart : start ≤ a.length) (hleast : IsLeast {i | start ≤ i ∧ IsRun a i cnt v} r) :
    ScanResult a start cnt v r := by
  have hex : ∃ i, start ≤ i ∧ IsRun a i cnt v := ⟨r, hleast.1⟩
  refine ⟨fun _ => hleast, fun hno => absurd hex hno, fun hcond => ⟨fun hr => ?_, fun hno =>
    absurd hex hno⟩⟩
  -- a run that begins at the largest `size_t` is empty, so it begins at `start`
  obtain ⟨⟨hr₁, hr₂, -⟩, hlower⟩ := hleast
  unfold unsignedSize at hlen
  unfold bitmapError at hr
  have hcnt : cnt = 0 := by omega
  have hstart' : r ≤ start := hlower ⟨Nat.le_refl _, by simpa [hcnt] using hstart, by simp [hcnt]⟩
  rcases hcond with hcond | hcond
  · exact absurd hcnt hcond
  · exact absurd (Nat.le_antisymm hr₁ hstart') (hr ▸ hcond)

/-- The places the loop of `bitmap_scan` goes through are those where a run would fit. -/
theorem mem_scan_range {i : Nat} (hcnt : cnt ≤ b.bitCnt) :
    i ∈ List.range' start (b.bitCnt - cnt + 1 - start) ↔ start ≤ i ∧ i + cnt ≤ b.bitCnt := by
  rw [mem_range'_1]
  omega

theorem scan_spec (hstart : start ≤ b.bitCnt) (cnt : Nat) (v : Bool) :
    ∃ r, b.scan start cnt v = some r ∧ ScanResult b.toList start cnt v r := by
  have hlen : b.toList.length < unsignedSize := by simpa using b.bitCnt_lt
  by_cases hcnt : cnt ≤ b.bitCnt
  · have hcode : b.scan start cnt v = some (((List.range' start (b.bitCnt - cnt + 1 - start)).find?
        (b.runAt cnt v)).getD bitmapError) := by
      rw [scan, assert_of hstart]
      simp only [some_bind, if_pos hcnt]
      exact scanLoop_spec v fun i hi => ((mem_scan_range hcnt).mp hi).2
    cases hfind : (List.range' start (b.bitCnt - cnt + 1 - start)).find? (b.runAt cnt v) with
    | none =>
      refine ⟨_, hcode.trans (by rw [hfind]; rfl), ScanResult.of_none ?_⟩
      rintro ⟨i, hi, hrun⟩
      have hfit : i + cnt ≤ b.bitCnt := by simpa using hrun.1
      exact find?_eq_none.mp hfind i ((mem_scan_range hcnt).mpr ⟨hi, hfit⟩)
        ((isRun_toList hfit v).mp hrun)
    | some r =>
      obtain ⟨hrun, hmem, hbefore⟩ := find?_range'_eq_some.mp hfind
      obtain ⟨hr, hfit⟩ := (mem_scan_range hcnt).mp hmem
      refine ⟨r, hcode.trans (by rw [hfind]; rfl), ScanResult.of_least hlen (by simpa using hstart)
        ⟨⟨hr, (isRun_toList hfit v).mpr hrun⟩, ?_⟩⟩
      rintro i ⟨hi, hrun'⟩
      by_contra hlt
      have hno := hbefore i hi (by omega)
      have hfit' : i + cnt ≤ b.bitCnt := by simpa using hrun'.1
      simp [(isRun_toList hfit' v).mp hrun'] at hno
  · refine ⟨bitmapError, ?_, ScanResult.of_none ?_⟩
    · rw [scan, assert_of hstart]
      simp only [some_bind, if_neg hcnt]
    · rintro ⟨i, -, hrun, -⟩
      rw [length_toList] at hrun
      omega

/-! ## Calls -/

/-- A call of the functions on bitmaps. -/
inductive Call where
  | set (idx : Nat) (value : Bool)
  | mark (idx : Nat)
  | reset (idx : Nat)
  | flip (idx : Nat)
  | setAll (value : Bool)
  | setMultiple (start cnt : Nat) (value : Bool)
  | count (start cnt : Nat) (value : Bool)
  | contains (start cnt : Nat) (value : Bool)
  | any (start cnt : Nat)
  | none (start cnt : Nat)
  | all (start cnt : Nat)
  | scan (start cnt : Nat) (value : Bool)
  | scanAndFlip (start cnt : Nat) (value : Bool)

/-- What a call returns. -/
inductive Result where
  | nothing
  | bool (value : Bool)
  | size (n : Nat)

/-- The arguments are in range: a bit is one of the bitmap's, and a range of bits ends in
it. -/
def Call.InRange (bitCnt : Nat) : Call → Prop
  | .set idx _ | .mark idx | .reset idx | .flip idx => idx < bitCnt
  | .setAll _ => True
  | .setMultiple start cnt _ | .count start cnt _ | .contains start cnt _ | .any start cnt
  | .none start cnt | .all start cnt => start + cnt ≤ bitCnt
  | .scan start _ _ | .scanAndFlip start _ _ => start ≤ bitCnt

/-- The code of a call. -/
def Call.exec (b : Bitmap) : Call → Option (Bitmap × Result)
  | .set idx value => (b.set idx value).map (·, .nothing)
  | .mark idx => (b.mark idx).map (·, .nothing)
  | .reset idx => (b.reset idx).map (·, .nothing)
  | .flip idx => (b.flip idx).map (·, .nothing)
  | .setAll value => (b.setAll value).map (·, .nothing)
  | .setMultiple start cnt value => (b.setMultiple start cnt value).map (·, .nothing)
  | .count start cnt value => (b.count start cnt value).map (b, .size ·)
  | .contains start cnt value => (b.contains start cnt value).map (b, .bool ·)
  | .any start cnt => (b.any start cnt).map (b, .bool ·)
  | .none start cnt => (b.none start cnt).map (b, .bool ·)
  | .all start cnt => (b.all start cnt).map (b, .bool ·)
  | .scan start cnt value => (b.scan start cnt value).map (b, .size ·)
  | .scanAndFlip start cnt value =>
    (b.scanAndFlip start cnt value).map fun (b, idx) => (b, .size idx)

/-- **What a call means for the array.** -/
def Call.Meets (a : List Bool) : Call → Result → List Bool → Prop
  | .set idx value, .nothing, a' => a' = a.set idx value
  | .mark idx, .nothing, a' => a' = a.set idx true
  | .reset idx, .nothing, a' => a' = a.set idx false
  | .flip idx, .nothing, a' => a' = a.modify idx (!·)
  | .setAll value, .nothing, a' => a' = List.replicate a.length value
  | .setMultiple start cnt value, .nothing, a' => a' = fill a start cnt value
  | .count start cnt value, .size n, a' => n = ((a.drop start).take cnt).count value ∧ a' = a
  | .contains start cnt value, .bool v, a' =>
    (v = true ↔ value ∈ (a.drop start).take cnt) ∧ a' = a
  | .any start cnt, .bool v, a' => (v = true ↔ true ∈ (a.drop start).take cnt) ∧ a' = a
  | .none start cnt, .bool v, a' => (v = true ↔ true ∉ (a.drop start).take cnt) ∧ a' = a
  | .all start cnt, .bool v, a' => (v = true ↔ false ∉ (a.drop start).take cnt) ∧ a' = a
  | .scan start cnt value, .size r, a' => ScanResult a start cnt value r ∧ a' = a
  | .scanAndFlip start cnt value, .size r, a' => ScanResult a start cnt value r ∧
    ((∃ i, start ≤ i ∧ IsRun a i cnt value) → a' = fill a r cnt (!value)) ∧
    ((¬∃ i, start ≤ i ∧ IsRun a i cnt value) → a' = a)
  | _, _, _ => False

theorem mem_slice_toList (hrange : start + cnt ≤ b.bitCnt) (value : Bool) :
    ((List.range cnt).any fun i => b.bit (start + i) == value) = true ↔
      value ∈ (b.toList.drop start).take cnt := by
  rw [slice_toList hrange]
  simp

theorem scanAndFlip_spec (hstart : start ≤ b.bitCnt) (cnt : Nat) (v : Bool) :
    ∃ b' r, b.scanAndFlip start cnt v = some (b', r) ∧ b'.bitCnt = b.bitCnt ∧
      ScanResult b.toList start cnt v r ∧
      ((∃ i, start ≤ i ∧ IsRun b.toList i cnt v) → b'.toList = fill b.toList r cnt (!v)) ∧
      ((¬∃ i, start ≤ i ∧ IsRun b.toList i cnt v) → b'.toList = b.toList) := by
  obtain ⟨r, hscan, hr⟩ := scan_spec hstart cnt v
  by_cases herror : r = bitmapError
  · refine ⟨b, r, by simp [scanAndFlip, hscan, herror], rfl, hr, fun hex => ?_, fun _ => rfl⟩
    -- only an empty run can begin at `BITMAP_ERROR`, and nothing is filled then
    obtain ⟨⟨-, hfit, -⟩, -⟩ := hr.least hex
    have hlt := b.bitCnt_lt
    rw [length_toList] at hfit
    unfold unsignedSize at hlt
    have hcnt : cnt = 0 := by
      unfold bitmapError at herror
      omega
    simp [fill, hcnt]
  · by_cases hex : ∃ i, start ≤ i ∧ IsRun b.toList i cnt v
    · obtain ⟨⟨-, hfit, -⟩, -⟩ := hr.least hex
      rw [length_toList] at hfit
      obtain ⟨b', hset, hrange⟩ := setMultiple_spec hfit (!v)
      refine ⟨b', r, by simp [scanAndFlip, hscan, herror, hset], hrange.bitCnt_eq, hr,
        fun _ => hrange.toList_eq hfit, fun hno => absurd hex hno⟩
    · exact absurd (hr.error hex) herror

/-- **One call** does to the words what it does to the array. -/
theorem Call.spec {call : Call} (hcall : call.InRange b.bitCnt) :
    ∃ b' r, call.exec b = some (b', r) ∧ b'.bitCnt = b.bitCnt ∧
      call.Meets b.toList r b'.toList := by
  cases call with
  | set idx value =>
    obtain ⟨b', hcode, hset⟩ := set_spec hcall value
    exact ⟨b', .nothing, by simp [exec, hcode], hset.bitCnt_eq, hset.toList_eq hcall⟩
  | mark idx =>
    obtain ⟨b', hcode, hset⟩ := mark_spec (elemIdx_lt hcall)
    exact ⟨b', .nothing, by simp [exec, hcode], hset.bitCnt_eq, hset.toList_eq hcall⟩
  | reset idx =>
    obtain ⟨b', hcode, hset⟩ := reset_spec hcall
    exact ⟨b', .nothing, by simp [exec, hcode], hset.bitCnt_eq, hset.toList_eq hcall⟩
  | flip idx =>
    obtain ⟨b', hcode, hset⟩ := flip_spec hcall
    refine ⟨b', .nothing, by simp [exec, hcode], hset.bitCnt_eq, (hset.toList_eq hcall).trans ?_⟩
    rw [modify_eq_set_getElem?, getElem?_toList hcall]
    rfl
  | setAll value =>
    have hrange : 0 + b.bitCnt ≤ b.bitCnt := by omega
    obtain ⟨b', hcode, hset⟩ := setMultiple_spec hrange value
    refine ⟨b', .nothing, by simp [exec, Bitmap.setAll, hcode], hset.bitCnt_eq,
      (hset.toList_eq hrange).trans ?_⟩
    simp [fill]
  | setMultiple start cnt value =>
    obtain ⟨b', hcode, hset⟩ := setMultiple_spec hcall value
    exact ⟨b', .nothing, by simp [exec, hcode], hset.bitCnt_eq, hset.toList_eq hcall⟩
  | count start cnt value =>
    refine ⟨b, .size _, by rw [exec, count_spec hcall]; rfl, rfl, ?_, rfl⟩
    rw [slice_toList hcall, List.count, countP_map]
    rfl
  | contains start cnt value =>
    exact ⟨b, .bool _, by rw [exec, contains_spec hcall]; rfl, rfl,
      mem_slice_toList hcall value, rfl⟩
  | any start cnt =>
    exact ⟨b, .bool _, by rw [exec, Bitmap.any, contains_spec hcall]; rfl, rfl,
      mem_slice_toList hcall true, rfl⟩
  | none start cnt =>
    refine ⟨b, .bool _, by rw [exec, Bitmap.none, contains_spec hcall]; rfl, rfl, ?_, rfl⟩
    rw [← mem_slice_toList hcall true, Bool.not_eq_true, Bool.not_eq_true']
  | all start cnt =>
    refine ⟨b, .bool _, by rw [exec, Bitmap.all, contains_spec hcall]; rfl, rfl, ?_, rfl⟩
    rw [← mem_slice_toList hcall false, Bool.not_eq_true, Bool.not_eq_true']
  | scan start cnt value =>
    obtain ⟨r, hcode, hr⟩ := scan_spec hcall cnt value
    exact ⟨b, .size r, by simp [exec, hcode], rfl, hr, rfl⟩
  | scanAndFlip start cnt value =>
    obtain ⟨b', r, hcode, hcnt, hr⟩ := scanAndFlip_spec hcall cnt value
    exact ⟨b', .size r, by simp [exec, hcode], hcnt, hr⟩

/-- A series of calls, with what each returns. -/
def execAll : Bitmap → List Call → Option (Bitmap × List Result)
  | b, [] => some (b, [])
  | b, call :: calls => do
    let (b, r) ← call.exec b
    let (b, rs) ← execAll b calls
    some (b, r :: rs)

/-- A series of calls on an array of booleans, with what each returns. -/
inductive ArrayCalls : List Bool → List Call → List Result → List Bool → Prop
  | nil {a : List Bool} : ArrayCalls a [] [] a
  | cons {a a' a'' : List Bool} {call : Call} {calls : List Call} {r : Result} {rs : List Result}
      (hcall : call.Meets a r a') (hcalls : ArrayCalls a' calls rs a'') :
      ArrayCalls a (call :: calls) (r :: rs) a''

end Bitmap
end Pintos
