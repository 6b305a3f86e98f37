import Pintos.HeapLayout

/-!
# The heap in memory

What memory has to hold for a layout of regions, a count for each header and a sequence
for each free list (`Image`): the sizes in the descriptors, the headers, and the lists.
Each kind of write the heap does keeps an image or makes a new one: a block that is in no
free list may be overwritten (`Image.write`), a count may be changed, a region added, and
the lists are those of `MemoryList`.

The functions of `malloc.c` that only read are determined by the image.
-/

namespace Pintos
open List
open MemoryList (elemAt)
open Function (update update_eq_self update_idem update_of_ne update_self)

/-- What the header of a region says its descriptor is. -/
def Region.descPtr (descs : Nat) (r : Region) : Nat :=
  match r.cls with
  | some i => descAt descs i
  | none => 0

/-- The header of a region, with its count. -/
structure Header (descs : Nat) (m : Memory) (r : Region) (n : Nat) : Prop where
  magic : Arena.magic m r.base = arenaMagic
  desc : Arena.desc m r.base = r.descPtr descs
  freeCnt : Arena.freeCnt m r.base = n

/-- The free lists. -/
def freeLists (descs : Nat) (i : SizeClass) : KernelList Nat :=
  Desc.freeList (descAt descs i)

/-- **The heap in memory.** -/
structure Image (descs : Nat) (regions : List Region) (cnt : Region → Nat)
    (free : SizeClass → List Nat) (m : Memory) : Prop where
  blockSize : ∀ i, Desc.blockSize m (descAt descs i) = classSize i
  blocksPerArena : ∀ i, Desc.blocksPerArena m (descAt descs i) = classCount i
  headers : ∀ r ∈ regions, Header descs m r (cnt r)
  lists : MemoryList.Holds (Node descs regions) m (freeLists descs) free

section
variable {descs : Nat} {regions : List Region} {cnt : Region → Nat}
  {free free' : SizeClass → List Nat} {m m' : Memory} {r : Region} {b n : Nat}

/-! ## What memory is read -/

/-- Where a descriptor keeps its two sizes. -/
def sizesAt (descs : Nat) (i : SizeClass) : Extent :=
  ⟨descAt descs i, 8⟩

theorem Header.congr (h : Header descs m r n) (heq : ∀ x ∈ r.header, m' x = m x) :
    Header descs m' r n := by
  have hword : ∀ k, k + 4 ≤ sizeofArena → m'.word (r.base + k) = m.word (r.base + k) := fun k hk =>
    Memory.word_congr fun x hx => heq x (Memory.mem_of_mem_wordAt hk hx)
  exact ⟨(hword 0 (by decide)).trans h.magic, (hword 4 (by decide)).trans h.desc,
    (hword 8 (by decide)).trans h.freeCnt⟩

variable {i : SizeClass}

theorem sizes_congr (heq : ∀ x ∈ sizesAt descs i, m' x = m x) :
    Desc.blockSize m' (descAt descs i) = Desc.blockSize m (descAt descs i) ∧
      Desc.blocksPerArena m' (descAt descs i) = Desc.blocksPerArena m (descAt descs i) := by
  have hword : ∀ k, k + 4 ≤ 8 → m'.word (descAt descs i + k) = m.word (descAt descs i + k) :=
    fun k hk => Memory.word_congr fun x hx => heq x (Memory.mem_of_mem_wordAt hk hx)
  exact ⟨hword 0 (by decide), hword 4 (by decide)⟩

theorem sizesAt_mem {x : Nat} (hx : x ∈ sizesAt descs i) :
    x ∈ Heap.descsAt descs := by
  simp only [sizesAt, descAt, Heap.descsAt, sizeofDesc, Extent.mem_iff] at hx ⊢
  omega

/-- **A node is in the descriptors or in a block.** -/
theorem Node.cases {a x : Nat} (h : Layout descs regions) (ha : Node descs regions a)
    (hx : x ∈ elemAt a) :
    x ∈ Heap.descsAt descs ∧ (∀ i, x ∉ sizesAt descs i) ∨
      ∃ r ∈ regions, a ∈ r.blocks ∧ x ∈ (⟨a, r.blockLen⟩ : Extent) := by
  rcases ha with ⟨i, ha⟩ | ⟨r, hr, ha⟩
  · refine .inl ⟨Layout.sentinel_mem i ?_, fun j => ?_⟩
    · rcases ha with rfl | rfl
      · exact .inl hx
      · exact .inr hx
    · simp only [Extent.mem_iff, elemAt, Desc.freeList, sizesAt, descAt, sizeofDesc] at ha hx ⊢
      omega
  · exact .inr ⟨r, hr, ha, h.elem_mem_block hr hx⟩

theorem Layout.block_ne_sentinel (hlayout : Layout descs regions) (hr : r ∈ regions)
    (hb : b ∈ r.blocks) (i : SizeClass) :
    b ≠ (freeLists descs i).head ∧ b ≠ (freeLists descs i).tail := by
  have hnot : b ∉ Heap.descsAt descs :=
    (hlayout.ok r hr).apart b (hlayout.mem_extent hr hb (hlayout.mem_block hr))
  have hself : ∀ a, a ∈ elemAt a := fun a =>
    ⟨Nat.le_refl a, Nat.lt_add_of_pos_right (Nat.zero_lt_succ 7)⟩
  refine ⟨?_, ?_⟩
  · rintro rfl
    exact hnot (Layout.sentinel_mem i (.inl (hself _)))
  · rintro rfl
    exact hnot (Layout.sentinel_mem i (.inr (hself _)))

/-! ## Writes -/

section
variable (h : Image descs regions cnt free m)
include h

theorem Image.recount {cnt' : Region → Nat} (heq : ∀ r ∈ regions, cnt' r = cnt r) :
    Image descs regions cnt' free m :=
  ⟨h.blockSize, h.blocksPerArena, fun r hr => (heq r hr).symm ▸ h.headers r hr, h.lists⟩

/-- **A header is written**, the one of `r`. -/
theorem Image.rehead {regions' : List Region} (hlayout : Layout descs regions')
    (hsub : ∀ q ∈ regions', q = r ∨ q ∈ regions) (hsub' : ∀ q ∈ regions, q ∈ regions')
    (hr : r ∈ regions') (hheader : Header descs m' r n) (hframe : ∀ x, x ∉ r.header → m' x = m x) :
    Image descs regions' (update cnt r n) free m' := by
  have hdescs : ∀ x ∈ Heap.descsAt descs, m' x = m x := fun x hx =>
    hframe x fun hxr => (hlayout.ok r hr).apart x (hlayout.header_mem_extent hr hxr) hx
  refine ⟨fun i => ?_, fun i => ?_, fun q hq => ?_, ?_⟩
  · rw [(sizes_congr fun x hx => hdescs x (sizesAt_mem hx)).1, h.blockSize i]
  · rw [(sizes_congr fun x hx => hdescs x (sizesAt_mem hx)).2, h.blocksPerArena i]
  · by_cases hne : q = r
    · subst hne
      rwa [update_self]
    · rw [update_of_ne hne]
      refine (h.headers q ((hsub q hq).resolve_left hne)).congr fun x hx => hframe x fun hxr => ?_
      exact hlayout.apart_of_ne hq hr hne x (hlayout.header_mem_extent hq hx)
        (hlayout.header_mem_extent hr hxr)
  · have hnodes : ∀ a, Node descs regions a → Node descs regions' a := by
      rintro a (ha | ⟨q, hq, ha⟩)
      · exact .inl ha
      · exact .inr ⟨q, hsub' q hq, ha⟩
    refine (h.lists.mono hnodes).congr fun i a ha x hx => ?_
    rcases (hnodes a (h.lists.inside i a ha)).cases hlayout hx with ⟨hmem, -⟩ | ⟨q, hq, hb, hxb⟩
    · exact hdescs x hmem
    · exact hframe x fun hxr => hlayout.block_apart_header hq hr hb x hxb hxr

variable (hlayout : Layout descs regions)
include hlayout

/-- **The lists change**, by writes to list elements only. -/
theorem Image.relink
    (hlists : MemoryList.Holds (Node descs regions) m' (freeLists descs) free')
    (hframe : ∀ x, (∀ a, Node descs regions a → x ∉ elemAt a) → m' x = m x) :
    Image descs regions cnt free' m' := by
  have hsizes : ∀ i, ∀ x ∈ sizesAt descs i, m' x = m x := by
    intro i x hx
    refine hframe x fun a ha hxa => ?_
    rcases ha.cases hlayout hxa with ⟨-, hnot⟩ | ⟨r, hr, hb, hxb⟩
    · exact hnot i hx
    · exact (hlayout.ok r hr).apart x (hlayout.mem_extent hr hb hxb) (sizesAt_mem hx)
  refine ⟨fun i => ?_, fun i => ?_, fun r hr => ?_, hlists⟩
  · rw [(sizes_congr (hsizes i)).1, h.blockSize i]
  · rw [(sizes_congr (hsizes i)).2, h.blocksPerArena i]
  · refine (h.headers r hr).congr fun x hx => hframe x fun a ha hxa => ?_
    rcases ha.cases hlayout hxa with ⟨hdescs, -⟩ | ⟨q, hq, hb, hxb⟩
    · exact (hlayout.ok r hr).apart x (hlayout.header_mem_extent hr hx) hdescs
    · exact hlayout.block_apart_header hq hr hb x hxb hx

/-- **The memory an image depends on**: the descriptors, the headers and the free
blocks. -/
theorem Image.congr (hdescs : ∀ x ∈ Heap.descsAt descs, m' x = m x)
    (hheaders : ∀ r ∈ regions, ∀ x ∈ r.header, m' x = m x)
    (hfree : ∀ i, ∀ c ∈ free i, ∀ r ∈ regions, c ∈ r.blocks →
      ∀ x ∈ (⟨c, r.blockLen⟩ : Extent), m' x = m x) :
    Image descs regions cnt free m' := by
  refine ⟨fun i => ?_, fun i => ?_, fun r hr => (h.headers r hr).congr (hheaders r hr), ?_⟩
  · rw [(sizes_congr fun x hx => hdescs x (sizesAt_mem hx)).1, h.blockSize i]
  · rw [(sizes_congr fun x hx => hdescs x (sizesAt_mem hx)).2, h.blocksPerArena i]
  · refine h.lists.congr fun i a ha x hx => ?_
    rcases (h.lists.inside i a ha).cases hlayout hx with ⟨hmem, -⟩ | ⟨r, hr, hb, hxb⟩
    · exact hdescs x hmem
    · -- a node that is in a block is not a sentinel, so it is on the list
      have hnot : x ∉ Heap.descsAt descs := (hlayout.ok r hr).apart x (hlayout.mem_extent hr hb hxb)
      simp only [KernelList.nodes, mem_cons, mem_append, not_mem_nil,
        or_false] at ha
      rcases ha with rfl | hfree' | rfl
      · exact absurd (Layout.sentinel_mem i (.inl hx)) hnot
      · exact hfree i a hfree' r hr hb x hxb
      · exact absurd (Layout.sentinel_mem i (.inr hx)) hnot

/-- **A block that is not free may be overwritten.** -/
theorem Image.write (hr : r ∈ regions) (hb : b ∈ r.blocks)
    (hnot : ∀ i, b ∉ free i) (hframe : ∀ x, x ∉ (⟨b, r.blockLen⟩ : Extent) → m' x = m x) :
    Image descs regions cnt free m' := by
  refine h.congr hlayout (fun x hx => hframe x ?_) (fun q hq x hx => hframe x ?_)
    fun i c hc q hq hcq x hx => hframe x ?_
  · exact fun hxb => (hlayout.ok r hr).apart x (hlayout.mem_extent hr hb hxb) hx
  · exact fun hxb => hlayout.block_apart_header hr hq hb x hxb hx
  · refine fun hxb => hlayout.block_apart hr hq hb hcq ?_ x hxb hx
    rintro rfl
    exact hnot i hc

/-- **A region is given up** and overwritten; none of its blocks is on a list. -/
theorem Image.giveUp (hr : r ∈ regions)
    (hnone : ∀ j, ∀ c ∈ free j, c ∉ r.blocks) (hframe : ∀ x, x ∉ r.extent → m' x = m x) :
    Image descs (regions.erase r) cnt free m' := by
  have hsub : ∀ q ∈ regions.erase r, q ∈ regions ∧ q ≠ r := fun q hq =>
    (hlayout.nodup.mem_erase_iff.mp hq).symm
  have hnodes : ∀ i, ∀ a ∈ (freeLists descs i).nodes (free i),
      Node descs (regions.erase r) a := by
    intro i a ha
    rcases h.lists.inside i a ha with hsentinel | ⟨q, hq, haq⟩
    · exact .inl hsentinel
    · refine .inr ⟨q, hlayout.nodup.mem_erase_iff.mpr ⟨?_, hq⟩, haq⟩
      rintro rfl
      obtain ⟨hhead, htail⟩ := hlayout.block_ne_sentinel hq haq i
      simp only [KernelList.nodes, mem_cons, mem_append, not_mem_nil,
        or_false] at ha
      exact hnone i a ((ha.resolve_left hhead).resolve_right htail) haq
  have hold : Image descs (regions.erase r) cnt free m :=
    ⟨h.blockSize, h.blocksPerArena, fun q hq => h.headers q (hsub q hq).1,
      h.lists.represents, hnodes⟩
  refine hold.congr (hlayout.erase r) (fun x hx => hframe x fun hxr => ?_)
    (fun q hq x hx => hframe x fun hxr => ?_) fun i c _ q hq hcq x hx => hframe x fun hxr => ?_
  · exact (hlayout.ok r hr).apart x hxr hx
  · exact (hsub q hq).2 (hlayout.unique (hsub q hq).1 hr
      (hlayout.header_mem_extent (hsub q hq).1 hx) hxr)
  · exact (hsub q hq).2 (hlayout.unique (hsub q hq).1 hr
      (hlayout.mem_extent (hsub q hq).1 hcq hx) hxr)

end

theorem Arena.setFreeCnt_of_notMem {x : Nat} (hx : x ∉ r.header) :
    Arena.setFreeCnt m r.base n x = m x :=
  Memory.setWord_of_notMem fun hx' => hx (Memory.mem_of_mem_wordAt (by decide) hx')

theorem Arena.init_of_notMem {d x : Nat} (hx : x ∉ r.header) :
    Arena.init m r.base d n x = m x := by
  rw [Arena.init, Arena.setFreeCnt_of_notMem hx, Memory.setWord_of_notMem,
    Memory.setWord_of_notMem]
  · exact fun hx' => hx (Memory.mem_of_mem_wordAt (k := 0) (by decide) hx')
  · exact fun hx' => hx (Memory.mem_of_mem_wordAt (by decide) hx')

/-- **A count is changed.** -/
theorem Image.setFreeCnt (h : Image descs regions cnt free m) (hlayout : Layout descs regions)
    (hr : r ∈ regions) (hn : n < unsignedSize) :
    Image descs regions (update cnt r n) free (Arena.setFreeCnt m r.base n) := by
  refine h.rehead hlayout (fun _ => .inr) (fun _ => id) hr ?_ fun x => Arena.setFreeCnt_of_notMem
  have hword : ∀ k, k ≤ 4 → (Arena.setFreeCnt m r.base n).word (r.base + k) = m.word (r.base + k) :=
    fun k hk => Memory.word_setWord_of_le (.inl (by omega))
  exact ⟨(hword 0 (by decide)).trans (h.headers r hr).magic,
    (hword 4 (by decide)).trans (h.headers r hr).desc, Memory.word_setWord m _ hn⟩

/-- **A region is added**, with a new header. -/
theorem Image.init (h : Image descs regions cnt free m) (hlayout : Layout descs (r :: regions))
    (hn : n < unsignedSize) :
    Image descs (r :: regions) (update cnt r n) free
      (Arena.init m r.base (r.descPtr descs) n) := by
  have hdesc : r.descPtr descs < unsignedSize := by
    unfold Region.descPtr
    cases r.cls with
    | none => exact Nat.zero_lt_succ _
    | some i =>
      have htop := hlayout.descs_top
      simp only [descAt, sizeofDesc] at htop ⊢
      omega
  refine h.rehead hlayout (fun q hq => mem_cons.mp hq) (fun q hq => mem_cons_of_mem r hq)
    mem_cons_self ⟨?_, ?_, Memory.word_setWord _ _ hn⟩ fun x hx => ?_
  · rw [Arena.magic, Arena.init, Arena.setFreeCnt, Memory.word_setWord_of_le,
      Memory.word_setWord_of_le, Memory.word_setWord _ _ (by decide)]
    · exact .inl (by omega)
    · exact .inl (by omega)
  · rw [Arena.desc, Arena.init, Arena.setFreeCnt, Memory.word_setWord_of_le,
      Memory.word_setWord _ _ hdesc]
    exact .inl (by omega)
  · exact Arena.init_of_notMem hx

/-! ## Blocks that keep their bytes -/

/-- **The blocks with the property `P` hold the same bytes.** -/
def SameBlocks (regions : List Region) (P : Nat → Prop) (m m' : Memory) : Prop :=
  ∀ r ∈ regions, ∀ c ∈ r.blocks, P c → ∀ x ∈ (⟨c, r.blockLen⟩ : Extent), m' x = m x

namespace SameBlocks
variable {P Q : Nat → Prop} {m'' : Memory}

theorem refl (m : Memory) : SameBlocks regions P m m :=
  fun _ _ _ _ _ _ _ => rfl

theorem trans (h : SameBlocks regions P m m') (h' : SameBlocks regions P m' m'') :
    SameBlocks regions P m m'' :=
  fun r hr c hc hP x hx => (h' r hr c hc hP x hx).trans (h r hr c hc hP x hx)

theorem mono {regions' : List Region} (h : SameBlocks regions P m m')
    (hsub : ∀ r ∈ regions', ∀ c ∈ r.blocks, Q c → r ∈ regions ∧ P c) :
    SameBlocks regions' Q m m' :=
  fun r hr c hc hQ => h r (hsub r hr c hc hQ).1 c hc (hsub r hr c hc hQ).2

variable (hlayout : Layout descs regions)
include hlayout

/-- Writes to headers only. -/
theorem of_header (hr : r ∈ regions)
    (hframe : ∀ x, x ∉ r.header → m' x = m x) : SameBlocks regions P m m' :=
  fun _ hq _ hc _ x hx => hframe x (hlayout.block_apart_header hq hr hc x hx)

/-- Writes to a block only. -/
theorem of_block (hr : r ∈ regions) (hb : b ∈ r.blocks)
    (hframe : ∀ x, x ∉ (⟨b, r.blockLen⟩ : Extent) → m' x = m x) :
    SameBlocks regions (· ≠ b) m m' :=
  fun _ hq _ hc hne x hx => hframe x (hlayout.block_apart hq hr hc hb hne x hx)

/-- Writes to list elements only. -/
theorem of_nodes {nodes : List Nat}
    (hnodes : ∀ a ∈ nodes, Node descs regions a)
    (hframe : ∀ x, (∀ a ∈ nodes, x ∉ elemAt a) → m' x = m x) :
    SameBlocks regions (· ∉ nodes) m m' := by
  intro q hq c hc hnot x hx
  refine hframe x fun a ha hxa => ?_
  rcases (hnodes a ha).cases hlayout hxa with ⟨hdescs, -⟩ | ⟨r, hr, hb, hxb⟩
  · exact (hlayout.ok q hq).apart x (hlayout.mem_extent hq hc hx) hdescs
  · refine hlayout.block_apart hq hr hc hb ?_ x hx hxb
    rintro rfl
    exact hnot ha

end SameBlocks

/-- The sentinels of a list are not blocks. -/
theorem Layout.notMem_nodes (hlayout : Layout descs regions) (hr : r ∈ regions) (hb : b ∈ r.blocks)
    (hnot : b ∉ free i) : b ∉ (freeLists descs i).nodes (free i) := by
  obtain ⟨hhead, htail⟩ := hlayout.block_ne_sentinel hr hb i
  intro hmem
  simp only [KernelList.nodes, mem_cons, mem_append, not_mem_nil, or_false] at hmem
  rcases hmem with heq | hmem | heq
  · exact hhead heq
  · exact hnot hmem
  · exact htail heq

/-! ## Functions that read -/

section
variable (h : Image descs regions cnt free m) (hlayout : Layout descs regions) (hr : r ∈ regions)
include h hlayout hr

/-- **The arena of a block** is its region. -/
theorem Image.blockToArena (hb : b ∈ r.blocks) : Heap.blockToArena m b = some r.base := by
  have hok := hlayout.ok r hr
  have hheader := h.headers r hr
  obtain ⟨hofs, hround⟩ := hok.pgOfs_block hb
  have hbase : r.base ≠ 0 := Nat.ne_of_gt hok.base_pos
  obtain ⟨k, hk, hblock⟩ := Region.mem_blocks.mp hb
  have hpage := hok.block_first_page hb
  have hdescs := hlayout.descs_pos
  have hdist : (pgOfs b + unsignedSize - sizeofArena) % unsignedSize = k * r.blockLen := by
    have heq : pgOfs b + unsignedSize - sizeofArena = k * r.blockLen + unsignedSize := by
      rw [hofs]
      simp only [sizeofArena, unsignedSize] at hblock ⊢
      omega
    rw [heq, Nat.add_mod_right]
    refine Nat.mod_eq_of_lt ?_
    simp only [unsignedSize, pgsize] at hpage ⊢
    omega
  have haligned : Arena.desc m r.base = 0 ∨ Desc.blockSize m (Arena.desc m r.base) ≠ 0 ∧
      (pgOfs b + unsignedSize - sizeofArena) % unsignedSize
        % Desc.blockSize m (Arena.desc m r.base) = 0 := by
    rw [hheader.desc, hdist, Region.descPtr, Region.blockLen]
    cases r.cls with
    | none => exact .inl rfl
    | some i =>
      have hsize := (classSize_bounds i).1
      exact .inr ⟨by rw [h.blockSize i]; omega, by rw [h.blockSize i, Nat.mul_mod_left]⟩
  have hbig : Arena.desc m r.base ≠ 0 ∨ pgOfs b = sizeofArena := by
    rw [hheader.desc, Region.descPtr]
    rw [Region.blockCnt] at hk
    cases hcls : r.cls with
    | none =>
      simp only [hcls] at hk
      have hzero : k = 0 := by omega
      rw [hzero] at hblock
      exact .inr (by omega)
    | some i => exact .inl (by simp only [descAt]; omega)
  simp only [Heap.blockToArena, hround, assert_of hbase, assert_of hheader.magic, assert_of
    haligned, assert_of hbig, some_bind]

theorem Image.arenaToBlock {i : SizeClass} (hcls : r.cls = some i) {k : Nat}
    (hk : k < classCount i) :
    Heap.arenaToBlock m r.base k = some (r.base + sizeofArena + k * classSize i) := by
  have hok := hlayout.ok r hr
  have hheader := h.headers r hr
  have hbase : r.base ≠ 0 := Nat.ne_of_gt hok.base_pos
  have hdesc : Arena.desc m r.base = descAt descs i := by
    rw [hheader.desc, Region.descPtr, hcls]
  have hin := hok.block_within (b := r.base + sizeofArena + k * classSize i)
    (Region.mem_blocks.mpr ⟨k, by simpa [Region.blockCnt, hcls] using hk,
      by simp [Region.blockLen, hcls]⟩)
  have htop := hok.top
  have hlen := hok.fits.1
  simp only [Heap.arenaToBlock, assert_of hbase, assert_of hheader.magic, hdesc, h.blocksPerArena i,
    assert_of hk, h.blockSize i, some_bind]
  rw [Nat.mod_eq_of_lt (by omega)]

/-- **`block_size`** of a block. -/
theorem Image.blockSize_eq (hb : b ∈ r.blocks) (hcnt : r.cls = none → cnt r = r.pages) :
    Heap.blockSize m b = some r.blockLen := by
  have hheader := h.headers r hr
  have hok := hlayout.ok r hr
  have hdescs := hlayout.descs_pos
  simp only [Heap.blockSize, h.blockToArena hlayout hr hb, some_bind, hheader.desc, hheader.freeCnt]
  cases hcls : r.cls with
  | none =>
    have hfirst : b = r.base + sizeofArena := by
      obtain ⟨k, hk, rfl⟩ := Region.mem_blocks.mp hb
      simp only [Region.blockCnt, hcls] at hk
      have hzero : k = 0 := by omega
      simp [hzero]
    have hofs := (hok.pgOfs_block hb).1
    have htop := hok.top
    have hbase := hok.base_pos
    have hpages := hok.pages_pos
    have heq : pgsize * r.pages + unsignedSize - pgOfs b
        = pgsize * r.pages - sizeofArena + unsignedSize := by
      rw [hofs, hfirst]
      simp only [pgsize, sizeofArena] at hpages ⊢
      omega
    simp only [Region.descPtr, Region.blockLen, hcls, hcnt hcls, ne_eq, not_true_eq_false, if_false]
    rw [heq, Nat.add_mod_right, Nat.mod_eq_of_lt (by omega)]
  | some i =>
    have hne : descAt descs i ≠ 0 := by
      simp only [descAt]
      omega
    simp only [Region.descPtr, Region.blockLen, hcls, if_pos hne, h.blockSize i]

end

/-! ## The free lists -/

/-- A block on none of the lists may be inserted. -/
theorem Layout.fresh (hlayout : Layout descs regions) (hr : r ∈ regions) (hb : b ∈ r.blocks)
    (hnot : ∀ j, b ∉ free j) : KernelList.Fresh (freeLists descs) free b :=
  fun j => hlayout.notMem_nodes hr hb (hnot j)

section
variable (h : Image descs regions cnt free m) (hlayout : Layout descs regions)
include h hlayout

variable {i : SizeClass}

/-- A list from which a block is taken leaves the blocks that are not on it alone. -/
theorem Image.unlink (hlists : MemoryList.Holds (Node descs regions) m' (freeLists descs) free')
    (hframe : ∀ x, (∀ a ∈ (freeLists descs i).nodes (free i), x ∉ elemAt a) → m' x = m x) :
    Image descs regions cnt free' m' ∧ SameBlocks regions (· ∉ free i) m m' :=
  ⟨h.relink hlayout hlists fun x hx => hframe x fun a ha => hx a (h.lists.inside i a ha),
    (SameBlocks.of_nodes hlayout (h.lists.inside i) hframe).mono fun _ hr _ hc hnot =>
      ⟨hr, hlayout.notMem_nodes hr hc hnot⟩⟩

section
variable (hr : r ∈ regions) (hb : b ∈ r.blocks) (hnot : ∀ j, b ∉ free j)
include hr hb hnot

/-- A block is put on a list, at one of its ends. -/
theorem Image.insert {push : Option Memory}
    (hpush : Node descs regions b → KernelList.Fresh (freeLists descs) free b →
      ∃ m', push = some m' ∧ MemoryList.Holds (Node descs regions) m' (freeLists descs) free' ∧
        ∀ x, x ∉ elemAt b → (∀ a ∈ (freeLists descs i).nodes (free i), x ∉ elemAt a) →
          m' x = m x) :
    ∃ m', push = some m' ∧ Image descs regions cnt free' m' ∧
      SameBlocks regions (fun c => c ≠ b ∧ c ∉ free i) m m' := by
  have hnode : Node descs regions b := .inr ⟨r, hr, hb⟩
  obtain ⟨m', hcode, hlists, hframe⟩ := hpush hnode (hlayout.fresh hr hb hnot)
  refine ⟨m', hcode, h.relink hlayout hlists fun x hx => hframe x (hx b hnode) fun a ha =>
    hx a (h.lists.inside i a ha), ?_⟩
  have hsame : SameBlocks regions (· ∉ b :: (freeLists descs i).nodes (free i)) m m' := by
    refine SameBlocks.of_nodes hlayout (fun a ha => ?_) fun x hx => hframe x
      (hx b mem_cons_self) fun a ha => hx a (mem_cons_of_mem b ha)
    rcases mem_cons.mp ha with rfl | ha
    · exact hnode
    · exact h.lists.inside i a ha
  refine hsame.mono fun r hr c hc hnot => ⟨hr, ?_⟩
  rw [mem_cons, not_or]
  exact ⟨hnot.1, hlayout.notMem_nodes hr hc hnot.2⟩

theorem Image.pushFront (i : SizeClass) :
    ∃ m', MemoryList.listPushFront m (freeLists descs i) b = some m' ∧
      Image descs regions cnt (update free i (b :: free i)) m' ∧
      SameBlocks regions (fun c => c ≠ b ∧ c ∉ free i) m m' :=
  h.insert hlayout hr hb hnot (h.lists.pushFront hlayout.spaced)

theorem Image.pushBack (i : SizeClass) :
    ∃ m', MemoryList.listPushBack m (freeLists descs i) b = some m' ∧
      Image descs regions cnt (update free i (free i ++ [b])) m' ∧
      SameBlocks regions (fun c => c ≠ b ∧ c ∉ free i) m m' :=
  h.insert hlayout hr hb hnot (h.lists.pushBack hlayout.spaced)

end

theorem Image.remove (hb : b ∈ free i) :
    ∃ m', MemoryList.listRemove m b = some m' ∧
      Image descs regions cnt (update free i ((free i).erase b)) m' ∧
      SameBlocks regions (· ∉ free i) m m' := by
  obtain ⟨xs, ys, -, hseq, herase⟩ := exists_erase_eq hb
  obtain ⟨m', hcode, hlists, hframe⟩ := h.lists.remove hlayout.spaced xs ys hseq
  rw [herase]
  exact ⟨m', hcode, h.unlink hlayout hlists hframe⟩

theorem Image.popFront {rest : List Nat} (hseq : free i = b :: rest) :
    ∃ m', MemoryList.listPopFront m (freeLists descs i) = some (m', b) ∧
      Image descs regions cnt (update free i rest) m' ∧ SameBlocks regions (· ∉ free i) m m' := by
  obtain ⟨m', hcode, hlists, hframe⟩ := h.lists.popFront hlayout.spaced hseq
  exact ⟨m', hcode, h.unlink hlayout hlists hframe⟩

end

theorem Image.nodup_free (h : Image descs regions cnt free m) (i : SizeClass) :
    (free i).Nodup := by
  have hnodup := (h.lists.represents.wellFormed i).nodup
  exact (nodup_append.mp (nodup_cons.mp hnodup).2).1

/-! ## The loops over an arena -/

/-- The blocks of an arena, in the order of the loops. -/
theorem Region.blocks_eq (hcls : r.cls = some i) :
    r.blocks = (List.range (classCount i)).map fun k => r.base + sizeofArena + k * classSize i := by
  simp only [Region.blocks, Region.blockCnt, Region.blockLen, hcls]

/-- A block of an arena is none of those before it. -/
theorem Region.Ok.block_notMem (hok : r.Ok descs) (hcls : r.cls = some i) {k : Nat}
    (hk : k < classCount i) : r.base + sizeofArena + k * classSize i ∉
      (List.range k).map fun k => r.base + sizeofArena + k * classSize i := by
  have hnodup := hok.nodup_blocks
  rw [Region.blocks_eq hcls] at hnodup
  intro hmem
  obtain ⟨l, hl, heq⟩ := mem_map.mp hmem
  have hl := mem_range.mp hl
  have := inj_on_of_nodup_map hnodup (mem_range.mpr (by omega)) (mem_range.mpr hk) heq
  omega

section
variable {i : SizeClass} (h : Image descs regions cnt free m) (hlayout : Layout descs regions)
  (hr : r ∈ regions) (hcls : r.cls = some i)
include h hlayout hr hcls

/-- **All blocks of a new arena go on the empty free list.** -/
theorem Image.pushBlocks (hempty : free i = []) (hnot : ∀ b ∈ r.blocks, ∀ j, b ∉ free j) :
    ∃ m', Heap.pushBlocks m (descAt descs i) r.base = some m' ∧
      Image descs regions cnt (update free i r.blocks) m' ∧
      SameBlocks regions (· ∉ r.blocks) m m' := by
  have hblocks := Region.blocks_eq hcls
  set f := fun k => r.base + sizeofArena + k * classSize i
  rw [Heap.pushBlocks, h.blocksPerArena i, hblocks]
  refine foldlM_range (P := fun k m' =>
    Image descs regions cnt (update free i ((List.range k).map f)) m' ∧
      SameBlocks regions (· ∉ (List.range (classCount i)).map f) m m') _ ⟨?_, SameBlocks.refl m⟩ ?_
  · rwa [range_zero, map_nil, ← hempty, update_eq_self]
  · rintro k m hk ⟨hm, hsame⟩
    have hmem : f k ∈ r.blocks := hblocks ▸ mem_map_of_mem (mem_range.mpr hk)
    have hfresh : ∀ j, f k ∉ update free i ((List.range k).map f) j :=
      (Function.forall_update_iff free fun _ bs => f k ∉ bs).mpr
        ⟨(hlayout.ok r hr).block_notMem hcls hk, fun j _ => hnot _ hmem j⟩
    obtain ⟨m', hcode, hm', hsame'⟩ := hm.pushBack hlayout hr hmem hfresh i
    refine ⟨m', ?_, ?_, hsame.trans (hsame'.mono fun q hq c _ hnot => ⟨hq, ?_, fun hc => ?_⟩)⟩
    · rw [hm.arenaToBlock hlayout hr hcls hk, some_bind]
      exact hcode
    · rwa [update_idem, update_self, ← map_singleton, ← map_append, ←
        range_succ] at hm'
    · rintro rfl
      exact hnot (hblocks ▸ hmem)
    · rw [update_self] at hc
      obtain ⟨l, hl, rfl⟩ := mem_map.mp hc
      have hl := mem_range.mp hl
      exact hnot (mem_map_of_mem (mem_range.mpr (by omega)))

/-- **All blocks of an arena are taken off the free list.** -/
theorem Image.removeBlocks (hall : ∀ b ∈ r.blocks, b ∈ free i) :
    ∃ m', Heap.removeBlocks m (descAt descs i) r.base = some m' ∧
      Image descs regions cnt (update free i ((free i).filter (· ∉ r.blocks))) m' ∧
      SameBlocks regions (· ∉ free i) m m' := by
  have hblocks := Region.blocks_eq hcls
  set f := fun k => r.base + sizeofArena + k * classSize i
  rw [Heap.removeBlocks, h.blocksPerArena i, hblocks]
  refine foldlM_range (P := fun k m' =>
    Image descs regions cnt (update free i ((free i).filter (· ∉ (List.range k).map f))) m' ∧
      SameBlocks regions (· ∉ free i) m m') _ ⟨?_, SameBlocks.refl m⟩ ?_
  · have hall : (free i).filter (· ∉ (List.range 0).map f) = free i := by simp
    rwa [hall, update_eq_self]
  · rintro k m hk ⟨hm, hsame⟩
    have hmem : f k ∈ r.blocks := hblocks ▸ mem_map_of_mem (mem_range.mpr hk)
    have hleft : f k ∈ update free i ((free i).filter (· ∉ (List.range k).map f)) i := by
      rw [update_self, mem_filter, decide_eq_true_eq]
      exact ⟨hall _ hmem, (hlayout.ok r hr).block_notMem hcls hk⟩
    obtain ⟨m', hcode, hm', hsame'⟩ := hm.remove hlayout hleft
    refine ⟨m', ?_, ?_, hsame.trans (hsame'.mono fun q hq c _ hnot => ⟨hq, fun hc => ?_⟩)⟩
    · rw [hm.arenaToBlock hlayout hr hcls hk, some_bind]
      exact hcode
    · have hnext : ((free i).filter (· ∉ (List.range k).map f)).erase (f k)
          = (free i).filter (· ∉ (List.range (k + 1)).map f) := by
        rw [((h.nodup_free i).filter _).erase_eq_filter, filter_filter]
        refine filter_congr fun b _ => ?_
        rw [range_succ, map_append, map_singleton, Bool.eq_iff_iff]
        simp only [Bool.and_eq_true, bne_iff_ne, decide_eq_true_eq, mem_append,
          mem_singleton, not_or, and_comm]
      rwa [update_idem, update_self, hnext] at hm'
    · rw [update_self] at hc
      exact hnot (mem_filter.mp hc).1

end

end
end Pintos
