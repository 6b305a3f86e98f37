import Pintos.Bitmap
import Pintos.Extent

/-!
# Page pools

`palloc_init` in `threads/palloc.c`.  Free memory, from 1 MB to the end of RAM, is split
into a kernel pool and a user pool.  Each pool begins with the bitmap of its pages, whose
size is computed from the number of pages the bitmap itself is taken from.

On every machine on which `palloc_init` does not panic, **the two bitmaps and the two
ranges of pages are apart and in free memory** (`pallocInit_spec`).
-/

namespace Pintos

/-! ## Addresses -/

/-- `PGSIZE`. -/
def pgsize : Nat := 4096

/-- `PHYS_BASE`. -/
def physBase : Nat := 0xc0000000

/-- `pg_ofs`. -/
def pgOfs (va : Nat) : Nat :=
  va % pgsize

/-- `pg_no`. -/
def pgNo (va : Nat) : Nat :=
  va / pgsize

theorem pgNo_mul (n : Nat) : pgNo (n * pgsize) = n :=
  Nat.mul_div_cancel n (by decide)

/-- `ptov`. -/
def ptov (paddr : Nat) : Option Nat := do
  assert (paddr < physBase)
  some ((paddr + physBase) % unsignedSize)

/-- `init_ram_pages`, as `start` computes it.  The BIOS returns in `AX` how many kB of
memory there are above the first 1024. -/
def initRamPages (ax : BitVec 16) : Nat :=
  let kb := ax.toNat + 1024
  (if kb ≤ 0x10000 then kb else 0x10000) / 4

/-! ## Pools -/

/-- `kernel_pool` and `user_pool`. -/
inductive PoolId where
  | kernel
  | user
  deriving DecidableEq

/-- `struct pool`, with its lock's `holder`, and the bitmap `used_map` points to as well
as where it is. -/
structure Pool (T : Type) where
  holder : Option T
  usedMap : Bitmap
  usedMapAt : Nat
  base : Nat

namespace Pool
variable {T : Type}

/-- `init_pool`.  `words` is what is in memory where the bitmap goes. -/
def init (base pageCnt : Nat) (words : Nat → BitVec 32) : Option (Pool T) := do
  let bmPages := divRoundUp (Bitmap.bufSize pageCnt) pgsize
  assert (bmPages ≤ pageCnt)
  let usedMap ← Bitmap.createInBuf (pageCnt - bmPages) words (bmPages * pgsize % unsignedSize)
  some
    { holder := none
      usedMap
      usedMapAt := base
      base := (base + bmPages * pgsize) % unsignedSize }

/-- `page_from_pool`. -/
def pageFromPool (pool : Pool T) (page : Nat) : Bool :=
  let pageNo := pgNo page
  let startPage := pgNo pool.base
  let endPage := (startPage + pool.usedMap.bitCnt) % unsignedSize
  pageNo ≥ startPage && pageNo < endPage

end Pool

/-- `free_pages` in `palloc_init`.  The difference of the two pointers is signed. -/
def freePageCnt (freeStart freeEnd : Nat) : Nat :=
  ((((freeEnd : Int) - freeStart).tdiv pgsize) % unsignedSize).toNat

/-- `palloc_init`. -/
def pallocInit {T : Type} (ramPages userPageLimit : Nat) (words : PoolId → Nat → BitVec 32) :
    Option (PoolId → Pool T) := do
  let freeStart ← ptov (1024 * 1024)
  let freeEnd ← ptov (ramPages * pgsize % unsignedSize)
  let freePages := freePageCnt freeStart freeEnd
  let userPages := if freePages / 2 > userPageLimit then userPageLimit else freePages / 2
  let kernelPages := freePages - userPages
  let kernelPool ← Pool.init freeStart kernelPages (words .kernel)
  let userPool ←
    Pool.init ((freeStart + kernelPages * pgsize) % unsignedSize) userPages (words .user)
  some fun
    | .kernel => kernelPool
    | .user => userPool

/-! ## Where the pools are -/

/-- What does not change about a pool. -/
structure PoolPlace where
  usedMapAt : Nat
  base : Nat
  bitCnt : Nat

def Pool.place {T : Type} (pool : Pool T) : PoolPlace :=
  ⟨pool.usedMapAt, pool.base, pool.usedMap.bitCnt⟩

namespace PoolPlace

/-- The pages the bitmap is in. -/
def mapPages (place : PoolPlace) : Extent :=
  ⟨pgNo place.usedMapAt, divRoundUp (Bitmap.bufSize place.bitCnt) pgsize⟩

/-- The pages the bitmap is about. -/
def dataPages (place : PoolPlace) : Extent :=
  ⟨pgNo place.base, place.bitCnt⟩

end PoolPlace

/-- The pages from 1 MB to the end of RAM. -/
def freeMemory (ramPages : Nat) : Extent :=
  ⟨pgNo physBase + 256, ramPages - 256⟩

/-- The page ranges of the two pools. -/
def poolPages (place : PoolId → PoolPlace) : List Extent :=
  [(place .kernel).mapPages, (place .kernel).dataPages, (place .user).mapPages,
    (place .user).dataPages]

/-- **The pools are laid out in free memory**, one after the other, each behind its
bitmap. -/
structure LaidOut (ramPages : Nat) (place : PoolId → PoolPlace) : Prop where
  apart : (poolPages place).Pairwise Extent.Apart
  within : ∀ e ∈ poolPages place, e.Within (freeMemory ramPages)
  aligned : ∀ p, pgOfs (place p).base = 0

theorem initRamPages_bounds (ax : BitVec 16) :
    256 ≤ initRamPages ax ∧ initRamPages ax ≤ 16384 := by
  unfold initRamPages
  dsimp only
  split <;> omega

theorem bufSize_eq {bitCnt : Nat} (h : bitCnt ≤ 16384) :
    Bitmap.bufSize bitCnt = 8 + 4 * ((bitCnt + 31) / 32) := by
  simp only [Bitmap.bufSize, Bitmap.byteCnt, Bitmap.elemCnt, divRoundUp, unsignedSize]
  omega

/-- The number of pages the bitmap of so many pages needs. -/
theorem mapLen_eq {bitCnt : Nat} (h : bitCnt ≤ 16384) :
    divRoundUp (Bitmap.bufSize bitCnt) pgsize = 1 := by
  rw [bufSize_eq h, divRoundUp, pgsize, unsignedSize]
  omega

theorem Pool.init_spec {T : Type} {first pageCnt : Nat} {words : Nat → BitVec 32} {pool : Pool T}
    (hcnt : pageCnt ≤ 16384) (hend : first + pageCnt < 1048576)
    (hcode : Pool.init (first * pgsize) pageCnt words = some pool) :
    1 ≤ pageCnt ∧ pool.place = ⟨first * pgsize, (first + 1) * pgsize, pageCnt - 1⟩ ∧
      pool.holder = none ∧ ∀ i, i < pageCnt - 1 → pool.usedMap.bit i = false := by
  by_cases hpos : 1 ≤ pageCnt
  · have hsize : Bitmap.bufSize (pageCnt - 1) ≤ 1 * pgsize % unsignedSize := by
      rw [bufSize_eq (by omega), pgsize, unsignedSize]
      omega
    have hlt : pageCnt - 1 + 31 < unsignedSize := by
      rw [unsignedSize]
      omega
    obtain ⟨b, hcreate, hbits, hclear⟩ := Bitmap.createInBuf_spec words hlt hsize
    have hbase : (first * pgsize + 1 * pgsize) % unsignedSize = (first + 1) * pgsize := by
      rw [pgsize, unsignedSize]
      omega
    rw [Pool.init, mapLen_eq hcnt] at hcode
    simp only [assert_of hpos, hcreate, hbase, some_bind, Option.some.injEq] at hcode
    subst hcode
    exact ⟨hpos, by rw [Pool.place, hbits], rfl, hclear⟩
  · rw [Pool.init, mapLen_eq hcnt, assert, if_neg hpos] at hcode
    cases hcode

theorem ptov_eq {paddr : Nat} (h : paddr ≤ 16384 * pgsize) :
    ptov paddr = some (physBase + paddr) := by
  have hlt : paddr < physBase := by
    rw [pgsize] at h
    rw [physBase]
    omega
  have hmod : (paddr + physBase) % unsignedSize = physBase + paddr := by
    rw [pgsize] at h
    rw [physBase, unsignedSize]
    omega
  rw [ptov, assert_of hlt, hmod]
  rfl

theorem freePageCnt_eq {ramPages : Nat} (h : 256 ≤ ramPages) (h' : ramPages ≤ 16384) :
    freePageCnt (physBase + 256 * pgsize) (physBase + ramPages * pgsize) = ramPages - 256 := by
  have hdiff : ((physBase + ramPages * pgsize : Nat) : Int) - (physBase + 256 * pgsize : Nat)
      = ((ramPages - 256 : Nat) : Int) * pgsize := by
    simp only [pgsize]
    omega
  rw [freePageCnt, hdiff, Int.mul_tdiv_cancel _ (by decide), unsignedSize]
  omega

/-- **`palloc_init` lays out the pools**, if it does not panic, and no page is used yet. -/
theorem pallocInit_spec {T : Type} {ramPages userPageLimit : Nat}
    {words : PoolId → Nat → BitVec 32} {pool : PoolId → Pool T} (hmin : 256 ≤ ramPages)
    (hmax : ramPages ≤ 16384) (hcode : pallocInit ramPages userPageLimit words = some pool) :
    LaidOut ramPages (fun p => (pool p).place) ∧ (∀ p, (pool p).holder = none) ∧
      ∀ p i, i < (pool p).place.bitCnt → (pool p).usedMap.bit i = false := by
  have hram : ramPages * pgsize % unsignedSize = ramPages * pgsize := by
    rw [pgsize, unsignedSize]
    omega
  have hstart : ptov (1024 * 1024) = some (physBase + 256 * pgsize) :=
    ptov_eq (by rw [pgsize]; omega)
  have hend : ptov (ramPages * pgsize) = some (physBase + ramPages * pgsize) :=
    ptov_eq (Nat.mul_le_mul_right _ hmax)
  rw [pallocInit, hram, hstart, hend] at hcode
  simp only [some_bind, freePageCnt_eq hmin hmax] at hcode
  generalize huser : (if (ramPages - 256) / 2 > userPageLimit then userPageLimit
    else (ramPages - 256) / 2) = userPages at hcode
  clear huser
  have hkernelBase : physBase + 256 * pgsize = (pgNo physBase + 256) * pgsize := rfl
  have huserBase : (physBase + 256 * pgsize + (ramPages - 256 - userPages) * pgsize) % unsignedSize
      = (pgNo physBase + 256 + (ramPages - 256 - userPages)) * pgsize := by
    rw [hkernelBase, ← Nat.add_mul]
    exact Nat.mod_eq_of_lt (by simp only [pgNo, pgsize, physBase, unsignedSize]; omega)
  rw [huserBase, hkernelBase] at hcode
  obtain ⟨kernelPool, hkernel, hcode⟩ := of_bind hcode
  obtain ⟨userPool, huser, hcode⟩ := of_bind hcode
  cases hcode
  have hbase : pgNo physBase = 786432 := rfl
  obtain ⟨hkpos, hkplace, hkholder, hkbits⟩ := Pool.init_spec (by omega) (by omega) hkernel
  obtain ⟨hupos, huplace, huholder, hubits⟩ := Pool.init_spec (by omega) (by omega) huser
  have hklen := mapLen_eq (show ramPages - 256 - userPages - 1 ≤ 16384 by omega)
  have hulen := mapLen_eq (show userPages - 1 ≤ 16384 by omega)
  refine ⟨⟨?_, ?_, fun p => ?_⟩, fun p => ?_, fun p i hi => ?_⟩
  · simp only [poolPages, PoolPlace.mapPages, PoolPlace.dataPages, hkplace, huplace, pgNo_mul,
      List.pairwise_cons, List.mem_cons, List.not_mem_nil, or_false, forall_eq_or_imp, forall_eq,
      hklen, hulen]
    refine ⟨⟨?_, ?_, ?_⟩, ⟨?_, ?_⟩, ?_, nofun, .nil⟩
    all_goals exact Extent.apart_of_le (by simp only; omega)
  · simp only [poolPages, PoolPlace.mapPages, PoolPlace.dataPages, hkplace, huplace, pgNo_mul,
      List.mem_cons, List.not_mem_nil, or_false, forall_eq_or_imp, forall_eq, Extent.Within,
      freeMemory, hklen, hulen]
    omega
  · cases p with
    | kernel => rw [hkplace]; exact Nat.mul_mod_left _ _
    | user => rw [huplace]; exact Nat.mul_mod_left _ _
  · cases p with
    | kernel => exact hkholder
    | user => exact huholder
  · cases p with
    | kernel => rw [hkplace] at hi; exact hkbits i hi
    | user => rw [huplace] at hi; exact hubits i hi

section
variable {ramPages : Nat} {place : PoolId → PoolPlace} (h : LaidOut ramPages place)
include h

theorem LaidOut.first_add_lt (hmax : ramPages ≤ 16384) (p : PoolId) :
    0 < pgNo (place p).base ∧ pgNo (place p).base + (place p).bitCnt < 1048576 := by
  have hmem : (place p).dataPages ∈ poolPages place := by
    cases p <;> simp [poolPages]
  have hbase : pgNo physBase = 786432 := rfl
  have hwithin := h.within _ hmem
  simp only [Extent.Within, freeMemory, PoolPlace.dataPages] at hwithin
  omega

/-- A page is in one pool, at one place. -/
theorem LaidOut.page_inj {p q : PoolId} {i j : Nat} (hi : i < (place p).bitCnt)
    (hj : j < (place q).bitCnt) (heq : pgNo (place p).base + i = pgNo (place q).base + j) :
    p = q ∧ i = j := by
  have hapart : (place .kernel).dataPages.Apart (place .user).dataPages := by
    have hpair := h.apart
    simp only [poolPages, List.pairwise_cons, List.mem_cons, List.not_mem_nil, or_false,
      forall_eq_or_imp, forall_eq] at hpair
    exact hpair.2.1.2
  cases p <;> cases q
  · exact ⟨rfl, by omega⟩
  · refine absurd (hapart (pgNo (place .kernel).base + i) ⟨?_, ?_⟩ ⟨?_, ?_⟩) id
    all_goals simp only [PoolPlace.dataPages]
    all_goals omega
  · refine absurd (hapart (pgNo (place .user).base + i) ⟨?_, ?_⟩ ⟨?_, ?_⟩) id
    all_goals simp only [PoolPlace.dataPages]
    all_goals omega
  · exact ⟨rfl, by omega⟩

end

end Pintos
