import Mathlib.Data.List.Nodup
import Mathlib.Data.List.Pairwise
import Pintos.Malloc

/-!
# Where the blocks of the heap are

A **region** is what the heap makes of pages it has obtained together: an arena, cut into
the blocks of a size class, or one big block.  In both a header comes first and the blocks
follow it one after the other, so that the facts about blocks are facts about regions:
**blocks are inside their region, behind its header, and apart from each other**.  A layout
puts regions into memory apart from each other and from the descriptors.
-/

namespace Pintos
open MemoryList (elemAt)

/-! ## Size classes -/

/-- The block sizes, by the index of their descriptor. -/
abbrev SizeClass := Fin 7

/-- The size of the blocks of a class. -/
def classSize (i : SizeClass) : Nat :=
  16 <<< i.val

/-- How many blocks of a class are in an arena. -/
def classCount (i : SizeClass) : Nat :=
  (pgsize - sizeofArena) / classSize i

/-- The blocks of an arena fit in its page. -/
theorem classSize_bounds (i : SizeClass) :
    16 ≤ classSize i ∧ 0 < classCount i ∧ sizeofArena + classCount i * classSize i ≤ pgsize := by
  revert i
  decide

/-! ## Regions -/

/-- Pages obtained together, and what they are used for. -/
structure Region where
  base : Nat
  pages : Nat
  /-- The class of the blocks in it; none if it is one big block. -/
  cls : Option SizeClass
  deriving DecidableEq

namespace Region

def extent (r : Region) : Extent :=
  ⟨r.base, pgsize * r.pages⟩

def header (r : Region) : Extent :=
  ⟨r.base, sizeofArena⟩

def blockLen (r : Region) : Nat :=
  match r.cls with
  | some i => classSize i
  | none => pgsize * r.pages - sizeofArena

def blockCnt (r : Region) : Nat :=
  match r.cls with
  | some i => classCount i
  | none => 1

/-- The addresses of its blocks. -/
def blocks (r : Region) : List Nat :=
  (List.range r.blockCnt).map fun k => r.base + sizeofArena + k * r.blockLen

/-- A region of whole pages, apart from the descriptors. -/
structure Ok (descs : Nat) (r : Region) : Prop where
  aligned : pgOfs r.base = 0
  base_pos : 0 < r.base
  pages_pos : 0 < r.pages
  top : r.base + pgsize * r.pages ≤ unsignedSize
  arena : r.cls ≠ none → r.pages = 1
  apart : r.extent.Apart (Heap.descsAt descs)

variable {descs : Nat} {r : Region} {b c : Nat}

theorem mem_blocks :
    b ∈ r.blocks ↔ ∃ k, k < r.blockCnt ∧ r.base + sizeofArena + k * r.blockLen = b := by
  simp [blocks]

/-- The header and the blocks fit in the pages. -/
theorem Ok.fits (h : r.Ok descs) :
    16 ≤ r.blockLen ∧ 0 < r.blockCnt ∧
      sizeofArena + r.blockCnt * r.blockLen ≤ pgsize * r.pages := by
  have hpos := h.pages_pos
  cases hcls : r.cls with
  | none =>
    simp only [blockLen, blockCnt, hcls, pgsize, sizeofArena]
    omega
  | some i =>
    have hone := h.arena (by simp [hcls])
    simp only [blockLen, blockCnt, hcls, hone, Nat.mul_one]
    exact classSize_bounds i

theorem Ok.base_mem (h : r.Ok descs) : r.base ∈ r.extent := by
  have hpos := h.pages_pos
  simp only [extent, Extent.mem_iff, pgsize]
  omega

/-- **A block is inside its region, behind the header.** -/
theorem Ok.block_within (h : r.Ok descs) (hb : b ∈ r.blocks) :
    r.base + sizeofArena ≤ b ∧ b + r.blockLen ≤ r.base + pgsize * r.pages := by
  obtain ⟨k, hk, rfl⟩ := mem_blocks.mp hb
  have hfits := h.fits.2.2
  have hlast : (k + 1) * r.blockLen ≤ r.blockCnt * r.blockLen := Nat.mul_le_mul_right _ hk
  rw [Nat.add_mul, Nat.one_mul] at hlast
  omega

/-- **Two blocks of a region are apart.** -/
theorem blocks_apart (hb : b ∈ r.blocks) (hc : c ∈ r.blocks) (hne : b ≠ c) :
    (⟨b, r.blockLen⟩ : Extent).Apart ⟨c, r.blockLen⟩ := by
  obtain ⟨k, -, rfl⟩ := mem_blocks.mp hb
  obtain ⟨l, -, rfl⟩ := mem_blocks.mp hc
  have hmono : ∀ {i j : Nat}, i < j → i * r.blockLen + r.blockLen ≤ j * r.blockLen := by
    intro i j hij
    have := Nat.mul_le_mul_right r.blockLen hij
    rwa [Nat.succ_mul] at this
  rcases Nat.lt_trichotomy k l with hlt | rfl | hlt
  · exact Extent.apart_of_le (by have := hmono hlt; simp only; omega)
  · exact absurd rfl hne
  · exact (Extent.apart_of_le (by have := hmono hlt; simp only; omega)).symm

theorem Ok.nodup_blocks (h : r.Ok descs) : r.blocks.Nodup := by
  refine List.nodup_range.map_on fun k _ l _ heq => ?_
  have hpos : 0 < r.blockLen := Nat.lt_of_lt_of_le (by decide) h.fits.1
  exact Nat.eq_of_mul_eq_mul_right hpos (Nat.add_left_cancel heq)

/-- A block is in the first page of its region. -/
theorem Ok.block_first_page (h : r.Ok descs) (hb : b ∈ r.blocks) : b < r.base + pgsize := by
  cases hcls : r.cls with
  | none =>
    obtain ⟨k, hk, rfl⟩ := mem_blocks.mp hb
    have hzero : k = 0 := by
      simp only [blockCnt, hcls] at hk
      omega
    simp only [hzero, pgsize, sizeofArena]
    omega
  | some i =>
    have hone := h.arena (by simp [hcls])
    have hin := (h.block_within hb).2
    have hlen := h.fits.1
    rw [hone] at hin
    omega

theorem Ok.pgOfs_block (h : r.Ok descs) (hb : b ∈ r.blocks) :
    pgOfs b = b - r.base ∧ pgRoundDown b = r.base := by
  have hlow := (h.block_within hb).1
  have hhigh := h.block_first_page hb
  have haligned := h.aligned
  have hofs : pgOfs b = b - r.base := by
    unfold pgOfs pgsize at *
    omega
  exact ⟨hofs, by rw [pgRoundDown, hofs]; omega⟩

end Region

/-! ## Layouts -/

/-- `&descs[i]`. -/
def descAt (descs : Nat) (i : SizeClass) : Nat :=
  descs + sizeofDesc * i.val

/-- **Regions in memory**, apart from each other and from the descriptors. -/
structure Layout (descs : Nat) (regions : List Region) : Prop where
  descs_pos : 0 < descs
  descs_top : descs + sizeofDesc * 10 ≤ unsignedSize
  ok : ∀ r ∈ regions, r.Ok descs
  apart : regions.Pairwise fun r q => r.extent.Apart q.extent

/-- Where list elements are: the sentinels of the free lists, and the blocks. -/
def Node (descs : Nat) (regions : List Region) (a : Nat) : Prop :=
  (∃ i, a = (Desc.freeList (descAt descs i)).head ∨ a = (Desc.freeList (descAt descs i)).tail) ∨
    ∃ r ∈ regions, a ∈ r.blocks

namespace Layout
variable {descs : Nat} {regions : List Region} {r q : Region} {b c x : Nat}

section
variable (h : Layout descs regions) (hr : r ∈ regions)
include h hr

/-- Different regions are apart. -/
theorem apart_of_ne (hq : q ∈ regions) (hne : r ≠ q) : r.extent.Apart q.extent := by
  have : Std.Symm fun r q : Region => r.extent.Apart q.extent := ⟨fun _ _ => Extent.Apart.symm⟩
  exact h.apart.forall hr hq hne

/-- **An address is in one region only.** -/
theorem unique (hq : q ∈ regions) (hx : x ∈ r.extent) (hx' : x ∈ q.extent) : r = q := by
  by_contra hne
  exact h.apart_of_ne hr hq hne x hx hx'

theorem mem_extent (hb : b ∈ r.blocks) (hx : x ∈ (⟨b, r.blockLen⟩ : Extent)) : x ∈ r.extent := by
  obtain ⟨hlow, hhigh⟩ := (h.ok r hr).block_within hb
  rw [Extent.mem_iff] at hx ⊢
  simp only [Region.extent] at hx ⊢
  omega

theorem header_mem_extent (hx : x ∈ r.header) :
    x ∈ r.extent := by
  have hfits := (h.ok r hr).fits.2.2
  rw [Extent.mem_iff] at hx ⊢
  simp only [Region.header, Region.extent] at hx ⊢
  omega

theorem mem_block :
    b ∈ (⟨b, r.blockLen⟩ : Extent) := by
  have hlen := (h.ok r hr).fits.1
  rw [Extent.mem_iff]
  simp only
  omega

section
variable (hq : q ∈ regions) (hb : b ∈ r.blocks)
include hq hb

theorem block_unique (hb' : b ∈ q.blocks) : r = q :=
  h.unique hr hq (h.mem_extent hr hb (h.mem_block hr)) (h.mem_extent hq hb' (h.mem_block hq))

/-- **Different blocks are apart.** -/
theorem block_apart (hc : c ∈ q.blocks) (hne : b ≠ c) :
    (⟨b, r.blockLen⟩ : Extent).Apart ⟨c, q.blockLen⟩ := by
  by_cases heq : r = q
  · subst heq
    exact Region.blocks_apart hb hc hne
  · exact (h.apart_of_ne hr hq heq).mono (fun _ => h.mem_extent hr hb) fun _ => h.mem_extent hq hc

/-- **Blocks are apart from every header.** -/
theorem block_apart_header :
    (⟨b, r.blockLen⟩ : Extent).Apart q.header := by
  by_cases heq : r = q
  · subst heq
    have hlow := ((h.ok r hr).block_within hb).1
    exact (Extent.apart_of_le (by simpa [Region.header] using hlow)).symm
  · exact (h.apart_of_ne hr hq heq).mono (fun _ => h.mem_extent hr hb)
      fun _ => h.header_mem_extent hq

end

end

theorem nodup (h : Layout descs regions) : regions.Nodup := by
  refine h.apart.imp_of_mem fun {r q} hr _ hapart => ?_
  rintro rfl
  exact hapart r.base (h.ok r hr).base_mem (h.ok r hr).base_mem

theorem erase (h : Layout descs regions) (r : Region) : Layout descs (regions.erase r) :=
  ⟨h.descs_pos, h.descs_top, fun q hq => h.ok q (List.mem_of_mem_erase hq),
    h.apart.sublist List.erase_sublist⟩

theorem elem_mem_block (h : Layout descs regions) (hr : r ∈ regions)
    (hx : x ∈ elemAt b) : x ∈ (⟨b, r.blockLen⟩ : Extent) := by
  have hlen := (h.ok r hr).fits.1
  rw [Extent.mem_iff] at hx ⊢
  simp only [elemAt] at hx ⊢
  omega

/-- The sentinels are in the descriptors. -/
theorem sentinel_mem (i : SizeClass) (hx : x ∈ elemAt (descAt descs i + 8) ∨
    x ∈ elemAt (descAt descs i + 16)) : x ∈ Heap.descsAt descs := by
  simp only [Extent.mem_iff, elemAt, descAt, Heap.descsAt, sizeofDesc] at hx ⊢
  omega

theorem block_pos (h : Layout descs regions) (hr : r ∈ regions) (hb : b ∈ r.blocks) : 0 < b := by
  have hlow := ((h.ok r hr).block_within hb).1
  have hpos := (h.ok r hr).base_pos
  omega

theorem spaced (h : Layout descs regions) : MemoryList.Spaced (Node descs regions) := by
  have hblock : ∀ {r : Region} {b : Nat}, r ∈ regions → b ∈ r.blocks → b < unsignedSize := by
    intro r b hr hb
    have hhigh := ((h.ok r hr).block_within hb).2
    have hlen := (h.ok r hr).fits.1
    have htop := (h.ok r hr).top
    omega
  have hsentinel : ∀ {i : SizeClass} {a : Nat}, (a = descAt descs i + 8 ∨ a = descAt descs i + 16) →
      0 < a ∧ a < unsignedSize := by
    intro i a ha
    have htop := h.descs_top
    simp only [descAt, sizeofDesc] at ha htop
    omega
  -- a sentinel and a block
  have hmixed : ∀ {i : SizeClass} {a : Nat} {r : Region} {b : Nat},
      (a = descAt descs i + 8 ∨ a = descAt descs i + 16) → r ∈ regions → b ∈ r.blocks →
      (elemAt a).Apart (elemAt b) := by
    intro i a r b ha hr hb x hx hx'
    refine (h.ok r hr).apart x (h.mem_extent hr hb (h.elem_mem_block hr hx')) (sentinel_mem i ?_)
    rcases ha with rfl | rfl
    · exact .inl hx
    · exact .inr hx
  refine ⟨?_, ?_, ?_⟩
  · rintro a (⟨i, ha⟩ | ⟨r, hr, hb⟩)
    · exact (hsentinel ha).1
    · exact h.block_pos hr hb
  · rintro a (⟨i, ha⟩ | ⟨r, hr, hb⟩)
    · exact (hsentinel ha).2
    · exact hblock hr hb
  · rintro a b (⟨i, ha⟩ | ⟨r, hr, ha⟩) (⟨j, hb⟩ | ⟨q, hq, hb⟩) hne
    · rw [Extent.apart_iff]
      simp only [elemAt, Desc.freeList, descAt, sizeofDesc] at ha hb ⊢
      omega
    · exact hmixed ha hq hb
    · exact (hmixed hb hr ha).symm
    · exact (h.block_apart hr hq ha hb hne).mono (fun _ => h.elem_mem_block hr)
        fun _ => h.elem_mem_block hq

end Layout
end Pintos
