import Pintos.Bitmap
import Pintos.InodeData

/-!
# Bitmaps in files

A bitmap is written to a file as the bytes of its words.  The bits of the last word that
are not used go along with it, with anything in them, and `bitmap_read` masks them out.
**A bitmap that is written is read back, bit for bit** (`withBytes_spec`).
-/

namespace Pintos
open List
open Filesys

namespace Bitmap

/-- `bitmap_create`, where memory can be allocated.  `words` is what the memory held. -/
def create (bitCnt : Nat) (words : Nat → BitVec 32) : Option Bitmap :=
  if h : bitCnt ≤ 32 * elemCnt bitCnt ∧ bitCnt < unsignedSize then
    Bitmap.setAll
      { bitCnt, bits := (List.range (elemCnt bitCnt)).map words
        bitCnt_lt := h.2, covers := by simpa using h.1 } false
  else
    none

/-- The bytes of the words. -/
def bytes (b : Bitmap) : List Byte :=
  b.bits.flatMap fun w => leBytes w.toNat

/-- The words that bytes make. -/
def words : List Byte → List (BitVec 32)
  | b₀ :: b₁ :: b₂ :: b₃ :: rest => BitVec.ofNat 32 (leWord [b₀, b₁, b₂, b₃]) :: words rest
  | _ => []

/-- `last_mask`. -/
def lastMask (b : Bitmap) : BitVec 32 :=
  let lastBits := b.bitCnt % 32
  if lastBits ≠ 0 then (1#32 <<< lastBits) - 1#32 else -1#32

/-- What `bitmap_read` makes of a bitmap when it reads the given bytes from the file. -/
def withBytes (b : Bitmap) (read : List Byte) : Option Bitmap :=
  let bits := (words (read ++ b.bytes.drop read.length)).modify (elemCnt b.bitCnt - 1)
    (· &&& b.lastMask)
  if h : b.bitCnt ≤ 32 * bits.length then
    some { b with bits, covers := h }
  else
    none

/-- A new bitmap has no bit set. -/
theorem create_spec {bitCnt : Nat} (words : Nat → BitVec 32) (hcnt : bitCnt + 31 < unsignedSize) :
    ∃ b, create bitCnt words = some b ∧ b.bitCnt = bitCnt ∧
      ∀ i, i < bitCnt → b.bit i = false := by
  obtain ⟨b, hcode, hb⟩ := createInBuf_spec words hcnt (Nat.le_refl _)
  rw [createInBuf, assert_of (Nat.le_refl _), some_bind] at hcode
  split at hcode
  case isTrue h =>
    refine ⟨b, ?_, hb⟩
    rw [create, dif_pos h.symm]
    exact hcode
  case isFalse => cases hcode

variable {b b' : Bitmap}

theorem elemIdx_of_mark {idx : Nat} (h : b.mark idx = some b') : elemIdx idx < b.bits.length := by
  by_contra hge
  simp [mark, modifyWord, assert, hge] at h

theorem mark_eq_some {idx : Nat} (h : b.mark idx = some b') : SetAt b idx true b' := by
  obtain ⟨b₁, hmark, hset⟩ := mark_spec (elemIdx_of_mark h)
  exact Option.some.inj (hmark.symm.trans h) ▸ hset

theorem length_leBytes (v : Nat) : (leBytes v).length = 4 :=
  rfl

theorem length_bytes (b : Bitmap) : b.bytes.length = 4 * b.bits.length := by
  rw [bytes, length_flatMap]
  simp [length_leBytes, Nat.mul_comm]

theorem words_leBytes (w : BitVec 32) (rest : List Byte) :
    words (leBytes w.toNat ++ rest) = w :: words rest := by
  have hword : leWord (leBytes w.toNat) = w.toNat := by
    have h := leWord_leBytes w.isLt []
    rwa [append_nil] at h
  have hfirst : words (leBytes w.toNat ++ rest) =
      BitVec.ofNat 32 (leWord (leBytes w.toNat)) :: words rest := rfl
  rw [hfirst, hword, BitVec.ofNat_toNat, BitVec.setWidth_eq]

theorem words_flatMap (ws : List (BitVec 32)) (rest : List Byte) :
    words (ws.flatMap (fun w => leBytes w.toNat) ++ rest) = ws ++ words rest := by
  induction ws with
  | nil => rfl
  | cons w ws ih =>
    rw [flatMap_cons, append_assoc, words_leBytes, ih]
    rfl

theorem take_flatMap (ws : List (BitVec 32)) (n : Nat) :
    (ws.flatMap fun w => leBytes w.toNat).take (4 * n) =
      (ws.take n).flatMap fun w => leBytes w.toNat := by
  induction ws generalizing n with
  | nil => simp
  | cons w ws ih =>
    cases n with
    | zero => rfl
    | succ n =>
      rw [flatMap_cons, take_succ_cons, flatMap_cons, ← ih n,
        take_append, length_leBytes, take_of_length_le (by rw [length_leBytes]; omega)]
      rfl

theorem drop_flatMap (ws : List (BitVec 32)) (n : Nat) :
    (ws.flatMap fun w => leBytes w.toNat).drop (4 * n) =
      (ws.drop n).flatMap fun w => leBytes w.toNat := by
  induction ws generalizing n with
  | nil => simp
  | cons w ws ih =>
    cases n with
    | zero => rfl
    | succ n =>
      rw [flatMap_cons, drop_succ_cons, ← ih n, drop_append, length_leBytes,
        drop_of_length_le (by rw [length_leBytes]; omega)]
      rfl

section
variable (hcnt : b.bitCnt + 31 < unsignedSize)
include hcnt

/-- The number of words, as it is. -/
theorem elemCnt_eq : elemCnt b.bitCnt = (b.bitCnt + 31) / 32 := by
  rw [elemCnt, divRoundUp, Nat.mod_eq_of_lt (by omega)]
  rfl

theorem byteCnt_eq :
    byteCnt b.bitCnt = 4 * ((b.bitCnt + 31) / 32) := by
  rw [byteCnt, elemCnt_eq hcnt, Nat.mod_eq_of_lt]
  omega

theorem byteCnt_le_length :
    byteCnt b.bitCnt ≤ b.bytes.length := by
  have hcovers := b.covers
  rw [byteCnt_eq hcnt, length_bytes]
  omega

end

theorem getLsbD_mask : ∀ k, k < 32 → ∀ j, j < k → ((1#32 <<< k) - 1#32).getLsbD j = true := by
  decide +kernel

/-- The bits in use are not masked out. -/
theorem getLsbD_lastMask {i : Nat} (hi : i < b.bitCnt) (hlast : elemIdx i = (b.bitCnt + 31) / 32 - 1) :
    b.lastMask.getLsbD (i % 32) = true := by
  rw [elemIdx] at hlast
  rw [lastMask]
  split
  · exact getLsbD_mask _ (Nat.mod_lt _ (by decide)) _ (by omega)
  · have hall : ∀ j, j < 32 → (-1#32).getLsbD j = true := by decide
    exact hall _ (Nat.mod_lt _ (by decide))

/-- **A bitmap is read back as it was written**, whatever is in the bits that are not
used, and whatever the bitmap it is read into holds. -/
theorem withBytes_spec (hcnt : b.bitCnt + 31 < unsignedSize) (hsame : b'.bitCnt = b.bitCnt) :
    ∃ b'', b'.withBytes (b.bytes.take (byteCnt b.bitCnt)) = some b'' ∧ b''.bitCnt = b.bitCnt ∧
      ∀ i, i < b.bitCnt → b''.bit i = b.bit i := by
  have hcovers := b.covers
  generalize hn : (b.bitCnt + 31) / 32 = n
  have hlength : (b.bytes.take (byteCnt b.bitCnt)).length = 4 * n := by
    rw [length_take, length_bytes, byteCnt_eq hcnt]
    omega
  have hwords : words (b.bytes.take (byteCnt b.bitCnt) ++ b'.bytes.drop (4 * n)) =
      b.bits.take n ++ b'.bits.drop n := by
    rw [byteCnt_eq hcnt, hn, bytes, bytes, take_flatMap, drop_flatMap, words_flatMap]
    have h := words_flatMap (b'.bits.drop n) []
    rw [append_nil] at h
    rw [h]
    exact congrArg _ (append_nil _)
  have helem : elemCnt b'.bitCnt - 1 = n - 1 := by
    rw [elemCnt_eq (by rw [hsame]; exact hcnt), hsame, hn]
  have hbits : b'.bitCnt ≤ 32 * ((b.bits.take n ++ b'.bits.drop n).modify (n - 1)
      (· &&& b'.lastMask)).length := by
    simp only [length_modify, length_append, length_take, length_drop]
    omega
  have hcode : b'.withBytes (b.bytes.take (byteCnt b.bitCnt)) = some
      { b' with
        bits := (b.bits.take n ++ b'.bits.drop n).modify (n - 1) (· &&& b'.lastMask)
        covers := hbits } := by
    simp only [withBytes, hlength, hwords, helem]
    exact dif_pos hbits
  refine ⟨_, hcode, hsame, fun i hi => ?_⟩
  have hidx : elemIdx i < n := by
    rw [elemIdx]
    omega
  have htake : (b.bits.take n ++ b'.bits.drop n)[elemIdx i]? = b.bits[elemIdx i]? := by
    rw [getElem?_append_left (by rw [length_take]; omega), getElem?_take_of_lt hidx]
  rw [bit, bit, getD_eq_getElem?_getD, getD_eq_getElem?_getD, getElem?_modify, htake]
  by_cases hlast : n - 1 = elemIdx i
  · have hmask : b'.lastMask.getLsbD (i % 32) = true :=
      getLsbD_lastMask (by rw [hsame]; exact hi) (by rw [hsame, hn]; exact hlast.symm)
    obtain ⟨w, hw⟩ : ∃ w, b.bits[elemIdx i]? = some w :=
      ⟨_, getElem?_eq_getElem (elemIdx_lt hi)⟩
    simp [hlast, hw, hmask]
  · simp [hlast]

/-- `bitmap_all` holds of a range of the bitmap in which every bit is set. -/
theorem all_eq_true {start cnt : Nat} (h : b.all start cnt = some true) :
    start + cnt ≤ b.bitCnt ∧ ∀ i, i < cnt → b.bit (start + i) = true := by
  have hlt := b.bitCnt_lt
  obtain ⟨r, hcontains, hr⟩ := of_bind h
  obtain rfl : r = false := by simpa using hr
  obtain ⟨_, hrange, hloop⟩ := of_bind hcontains
  have hstart : start ≤ b.bitCnt := by
    by_contra hgt
    simp [assertRange, assert, hgt] at hrange
  -- no test has failed, and none has found a bit that is not set
  have htests : ∀ is : List Nat, b.containsLoop start false is = some false →
      ∀ i ∈ is, b.test ((start + i) % unsignedSize) = some true := by
    intro is
    induction is with
    | nil => exact fun _ i hi => absurd hi not_mem_nil
    | cons j is ih =>
      intro hloop i hi
      rw [containsLoop] at hloop
      obtain ⟨v, htest, hrest⟩ := of_bind hloop
      cases v with
      | false => simp at hrest
      | true =>
        rcases mem_cons.mp hi with rfl | hi
        · exact htest
        · exact ih (by simpa using hrest) i hi
  have hfits : start + cnt ≤ b.bitCnt := by
    by_contra hgt
    have htest := htests _ hloop (b.bitCnt - start) (mem_range.mpr (by omega))
    rw [Nat.add_sub_cancel' hstart, Nat.mod_eq_of_lt hlt] at htest
    simp [test, assert] at htest
  refine ⟨hfits, fun i hi => ?_⟩
  have htest := htests _ hloop i (mem_range.mpr hi)
  rw [Nat.mod_eq_of_lt (by omega), test_spec (by omega)] at htest
  exact Option.some.inj htest

/-- Every bit of the range is set: `bitmap_all` holds. -/
theorem all_of_bits {start cnt : Nat} (hrange : start + cnt ≤ b.bitCnt)
    (h : ∀ i, i < cnt → b.bit (start + i) = true) : b.all start cnt = some true := by
  have hnone : ((List.range cnt).any fun i => b.bit (start + i) == false) = false := by
    rw [any_eq_false]
    intro i hi
    simp [h i (mem_range.mp hi)]
  rw [all, contains_spec hrange, hnone]
  rfl

/-- **`bitmap_scan_and_flip`**, bit by bit: the first bits that are free are taken, if there
are any. -/
theorem scanAndFlip_bits (b : Bitmap) (cnt : Nat) :
    ∃ b' r, b.scanAndFlip 0 cnt false = some (b', r) ∧
      ((r = bitmapError ∧ b' = b ∧
        ¬∃ i, i + cnt ≤ b.bitCnt ∧ ∀ j, j < cnt → b.bit (i + j) = false) ∨
      (r ≠ bitmapError ∧ r + cnt ≤ b.bitCnt ∧ (∀ j, j < cnt → b.bit (r + j) = false) ∧
        b.SetRange r cnt true b')) := by
  obtain ⟨r, hscan, hr⟩ := scan_spec (Nat.zero_le b.bitCnt) cnt false
  have hrun : ∀ i, IsRun b.toList i cnt false ↔
      i + cnt ≤ b.bitCnt ∧ ∀ j, j < cnt → b.bit (i + j) = false := by
    intro i
    rw [IsRun, length_toList]
    refine and_congr_right fun hi => forall₂_congr fun j hj => ?_
    rw [getElem?_toList (by omega), Option.some.injEq]
  have herror := hr.error_iff (.inr (by decide))
  by_cases hex : ∃ i, 0 ≤ i ∧ IsRun b.toList i cnt false
  · have hne : r ≠ bitmapError := fun h => herror.mp h hex
    obtain ⟨hfits, hbits⟩ := (hrun r).mp (hr.least hex).1.2
    obtain ⟨b', hset, hb'⟩ := setMultiple_spec hfits true
    refine ⟨b', r, ?_, .inr ⟨hne, hfits, hbits, hb'⟩⟩
    rw [scanAndFlip, hscan]
    simp only [some_bind, if_pos hne, Bool.not_false, hset]
  · have heq : r = bitmapError := hr.error hex
    refine ⟨b, r, ?_, .inl ⟨heq, rfl, ?_⟩⟩
    · rw [scanAndFlip, hscan]
      simp only [some_bind, if_neg (not_not.mpr heq)]
    · rintro ⟨i, hi⟩
      exact hex ⟨i, Nat.zero_le i, (hrun i).mpr hi⟩

end Bitmap
end Pintos
