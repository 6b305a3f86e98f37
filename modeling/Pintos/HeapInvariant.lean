import Pintos.HeapImage

/-!
# The heap's invariant

Every block of an arena is on the free list of its class or live (`Account`), and what
memory shows is an image of this (`Heap.Inv`): the count in a header is the number of
blocks of its arena that are not live.  `malloc`, `calloc`, `realloc` and `free` keep the
invariant, one lemma for each way they change the regions and the lists: a block is taken
(`popBlock_spec`), an arena or a big block is added, a block is put back, and a region
without live blocks is given up.

**Between calls the heap is consistent** (`heap_consistent`) and has lost no page
(`pages_given_back`), with one condition.  `malloc`
adds the size of a header to the size of a big request, in 32 bits.  A request of almost
2 to the 32 bytes therefore gets one page.  The caller may not care, but `calloc` zeroes
what was asked for and `realloc` copies the old block, and both then write behind the
block (`realloc_overruns`).
-/

namespace Pintos
open List
open TransitionSystem (after orSelf)
open Function (update update_of_ne update_self)
open MemoryList (links)

/-! ## Blocks are free or live -/

/-- The count in the header of a region: of its free blocks, or of its pages. -/
def Region.count (live : List Nat) (r : Region) : Nat :=
  match r.cls with
  | some _ => r.blocks.countP (· ∉ live)
  | none => r.pages

/-- **Every block of an arena is on the free list of its class or live, and not both.** -/
structure Account (regions : List Region) (free : SizeClass → List Nat) (live : List Nat) :
    Prop where
  free_iff : ∀ i b, b ∈ free i ↔ (∃ r ∈ regions, r.cls = some i ∧ b ∈ r.blocks) ∧ b ∉ live
  region : ∀ p ∈ live, ∃ r ∈ regions, p ∈ r.blocks
  nodup : live.Nodup

section Account
variable {descs : Nat} {regions : List Region} {free : SizeClass → List Nat} {live : List Nat}
  {r : Region} {b : Nat} {i : SizeClass}

theorem Account.notMem_free (h : Account regions free live) (hb : b ∈ live) (j : SizeClass) :
    b ∉ free j :=
  fun hmem => ((h.free_iff j b).mp hmem).2 hb

/-- The region of a live block is among those that are left. -/
theorem Account.region_of_sub {regions' : List Region} (h : Account regions' free live)
    (hlayout : Layout descs regions) (hsub : ∀ q ∈ regions', q ∈ regions) (hr : r ∈ regions)
    (hb : b ∈ r.blocks) (hlive : b ∈ live) : r ∈ regions' := by
  obtain ⟨q, hq, hbq⟩ := h.region b hlive
  rwa [← hlayout.block_unique (hsub q hq) hr hbq hb]

section
variable (h : Account regions free live)
include h

/-- A block is on the free list of one class at most. -/
theorem Account.cls_unique (hlayout : Layout descs regions) (hr : r ∈ regions) (hb : b ∈ r.blocks)
    (hmem : b ∈ free i) : r.cls = some i := by
  obtain ⟨⟨q, hq, hcls, hbq⟩, -⟩ := (h.free_iff i b).mp hmem
  exact hlayout.block_unique hr hq hb hbq ▸ hcls

/-- **A free block becomes live.** -/
theorem Account.take {rest : List Nat} (hlayout : Layout descs regions) (hseq : free i = b :: rest)
    (hnodup : (free i).Nodup) :
    Account regions (update free i rest) (b :: live) := by
  have hmem : b ∈ free i := by simp [hseq]
  obtain ⟨⟨r, hr, hcls, hb⟩, hnot⟩ := (h.free_iff i b).mp hmem
  rw [hseq, nodup_cons] at hnodup
  refine ⟨fun j c => ?_, ?_, nodup_cons.mpr ⟨hnot, h.nodup⟩⟩
  · rw [mem_cons, not_or, and_left_comm, ← h.free_iff]
    by_cases hj : j = i
    · subst hj
      rw [update_self, hseq, mem_cons]
      refine ⟨fun hc => ⟨?_, .inr hc⟩, fun hc => hc.2.resolve_left hc.1⟩
      rintro rfl
      exact hnodup.1 hc
    · rw [update_of_ne hj]
      refine ⟨fun hc => ⟨?_, hc⟩, fun hc => hc.2⟩
      rintro rfl
      exact hj (Option.some.inj ((h.cls_unique hlayout hr hb hc).symm.trans hcls))
  · intro p hp
    rcases mem_cons.mp hp with rfl | hp
    · exact ⟨r, hr, hb⟩
    · exact h.region p hp

/-- **A live block becomes free.** -/
theorem Account.put (hlayout : Layout descs regions) (hr : r ∈ regions) (hcls : r.cls = some i)
    (hb : b ∈ r.blocks) (hlive : b ∈ live) :
    Account regions (update free i (b :: free i)) (live.erase b) := by
  refine ⟨fun j c => ?_, fun p hp => h.region p (mem_of_mem_erase hp), h.nodup.erase b⟩
  have hsplit : c ∉ live.erase b ↔ c = b ∨ c ∉ live := by
    rw [h.nodup.mem_erase_iff, not_and_or, not_not]
  rw [hsplit]
  by_cases hj : j = i
  · subst hj
    rw [update_self, mem_cons, h.free_iff]
    constructor
    · rintro (rfl | ⟨hin, hc⟩)
      · exact ⟨⟨r, hr, hcls, hb⟩, .inl rfl⟩
      · exact ⟨hin, .inr hc⟩
    · rintro ⟨hin, rfl | hc⟩
      · exact .inl rfl
      · exact .inr ⟨hin, hc⟩
  · rw [update_of_ne hj, h.free_iff]
    refine ⟨fun hc => ⟨hc.1, .inr hc.2⟩, ?_⟩
    rintro ⟨⟨q, hq, hclsq, hcq⟩, rfl | hc⟩
    · have hrq := hlayout.block_unique hr hq hb hcq
      rw [← hrq, hcls] at hclsq
      exact absurd (Option.some.inj hclsq).symm hj
    · exact ⟨⟨q, hq, hclsq, hcq⟩, hc⟩

section
variable (hlayout : Layout descs (r :: regions))
include hlayout

/-- The blocks of a region that is added are not live. -/
theorem Account.notMem_live (hb : b ∈ r.blocks) :
    b ∉ live := by
  intro hlive
  obtain ⟨q, hq, hbq⟩ := h.region b hlive
  have heq := hlayout.block_unique mem_cons_self (mem_cons_of_mem r hq) hb hbq
  subst heq
  exact (pairwise_cons.mp hlayout.apart).1 r hq b
    (hlayout.mem_extent mem_cons_self hb (hlayout.mem_block mem_cons_self))
    (hlayout.mem_extent mem_cons_self hb (hlayout.mem_block mem_cons_self))

/-- **An arena is added**, all its blocks free. -/
theorem Account.addArena (hcls : r.cls = some i) (hempty : free i = []) :
    Account (r :: regions) (update free i r.blocks) live := by
  refine ⟨fun j c => ?_, fun p hp => ?_, h.nodup⟩
  · by_cases hj : j = i
    · subst hj
      have hnone := h.free_iff j c
      rw [hempty] at hnone
      rw [update_self]
      refine ⟨fun hc => ⟨⟨r, mem_cons_self, hcls, hc⟩, h.notMem_live hlayout hc⟩, ?_⟩
      rintro ⟨⟨q, hq, hclsq, hcq⟩, hc⟩
      rcases mem_cons.mp hq with rfl | hq
      · exact hcq
      · exact absurd (hnone.mpr ⟨⟨q, hq, hclsq, hcq⟩, hc⟩) not_mem_nil
    · rw [update_of_ne hj, h.free_iff]
      refine and_congr_left fun _ => ⟨?_, ?_⟩
      · rintro ⟨q, hq, hrest⟩
        exact ⟨q, mem_cons_of_mem r hq, hrest⟩
      · rintro ⟨q, hq, hclsq, hcq⟩
        rcases mem_cons.mp hq with rfl | hq
        · rw [hcls] at hclsq
          exact absurd (Option.some.inj hclsq).symm hj
        · exact ⟨q, hq, hclsq, hcq⟩
  · obtain ⟨q, hq, hpq⟩ := h.region p hp
    exact ⟨q, mem_cons_of_mem r hq, hpq⟩

/-- **A big block is added.** -/
theorem Account.addBig (hcls : r.cls = none) (hb : b ∈ r.blocks) :
    Account (r :: regions) free (b :: live) := by
  refine ⟨fun j c => ?_, fun p hp => ?_, nodup_cons.mpr ⟨h.notMem_live hlayout hb, h.nodup⟩⟩
  · rw [h.free_iff]
    constructor
    · rintro ⟨⟨q, hq, hclsq, hcq⟩, hc⟩
      refine ⟨⟨q, mem_cons_of_mem r hq, hclsq, hcq⟩, ?_⟩
      rw [mem_cons, not_or]
      refine ⟨?_, hc⟩
      rintro rfl
      have heq := hlayout.block_unique mem_cons_self (mem_cons_of_mem r hq) hb hcq
      rw [← heq, hcls] at hclsq
      exact absurd hclsq (by simp)
    · rintro ⟨⟨q, hq, hclsq, hcq⟩, hc⟩
      rw [mem_cons, not_or] at hc
      rcases mem_cons.mp hq with rfl | hq
      · rw [hcls] at hclsq
        exact absurd hclsq (by simp)
      · exact ⟨⟨q, hq, hclsq, hcq⟩, hc.2⟩
  · rcases mem_cons.mp hp with rfl | hp
    · exact ⟨r, mem_cons_self, hb⟩
    · obtain ⟨q, hq, hpq⟩ := h.region p hp
      exact ⟨q, mem_cons_of_mem r hq, hpq⟩

end

/-- **A big block is given back.** -/
theorem Account.dropBig (hlayout : Layout descs regions) (hr : r ∈ regions) (hcls : r.cls = none)
    (hb : b ∈ r.blocks) :
    Account regions free (live.erase b) := by
  refine ⟨fun j c => ?_, fun p hp => h.region p (mem_of_mem_erase hp), h.nodup.erase b⟩
  rw [h.free_iff, h.nodup.mem_erase_iff]
  refine and_congr_right fun hin => ?_
  obtain ⟨q, hq, hclsq, hcq⟩ := hin
  have hne : c ≠ b := by
    rintro rfl
    rw [← hlayout.block_unique hr hq hb hcq, hcls] at hclsq
    exact absurd hclsq (by simp)
  simp [hne]

/-- **A region without live blocks is given up.** -/
theorem Account.giveUp {free' : SizeClass → List Nat} (hlayout : Layout descs regions)
    (hr : r ∈ regions) (hdead : ∀ c ∈ r.blocks, c ∉ live)
    (hfree : ∀ j c, c ∈ free' j ↔ c ∈ free j ∧ c ∉ r.blocks) :
    Account (regions.erase r) free' live := by
  have hmem : ∀ q, q ∈ regions.erase r ↔ q ≠ r ∧ q ∈ regions := fun q =>
    hlayout.nodup.mem_erase_iff
  refine ⟨fun j c => ?_, fun p hp => ?_, h.nodup⟩
  · rw [hfree, h.free_iff]
    constructor
    · rintro ⟨⟨⟨q, hq, hclsq, hcq⟩, hc⟩, hnot⟩
      refine ⟨⟨q, (hmem q).mpr ⟨?_, hq⟩, hclsq, hcq⟩, hc⟩
      rintro rfl
      exact hnot hcq
    · rintro ⟨⟨q, hq, hclsq, hcq⟩, hc⟩
      obtain ⟨hne, hq⟩ := (hmem q).mp hq
      exact ⟨⟨⟨q, hq, hclsq, hcq⟩, hc⟩, fun hcr => hne (hlayout.block_unique hq hr hcq hcr)⟩
  · obtain ⟨q, hq, hpq⟩ := h.region p hp
    refine ⟨q, (hmem q).mpr ⟨?_, hq⟩, hpq⟩
    rintro rfl
    exact hdead p hpq hp

end

/-! ## Counting free blocks -/

/-- One more live block is one free block less. -/
theorem countP_cons_live {blocks : List Nat} (hnodup : blocks.Nodup) (hb : b ∈ blocks)
    (hnot : b ∉ live) :
    blocks.countP (· ∉ live) = blocks.countP (· ∉ b :: live) + 1 := by
  have hperm := perm_cons_erase hb
  have hrest : (blocks.erase b).countP (· ∉ live) = (blocks.erase b).countP (· ∉ b :: live) := by
    refine countP_congr fun c hc => ?_
    have hne := (hnodup.mem_erase_iff.mp hc).1
    simp [hne]
  rw [hperm.countP_eq, hperm.countP_eq, countP_cons_of_pos (by simpa using hnot),
    countP_cons_of_neg (by simp), hrest]

theorem Region.count_of_cls (hcls : r.cls = some i) :
    r.count live = r.blocks.countP (· ∉ live) := by
  simp only [Region.count, hcls]

theorem Region.count_congr {live' : List Nat} (h : ∀ b ∈ r.blocks, b ∈ live' ↔ b ∈ live) :
    r.count live' = r.count live := by
  unfold Region.count
  cases r.cls with
  | none => rfl
  | some i =>
    refine countP_congr fun b hb => ?_
    simp [h b hb]

theorem Region.length_blocks (r : Region) : r.blocks.length = r.blockCnt := by
  simp [Region.blocks]

/-- **All blocks of an arena are free** iff its count is that of its blocks. -/
theorem Region.count_le_iff (r : Region) (live : List Nat) (hcls : r.cls = some i) :
    r.count live ≤ classCount i ∧ (r.count live = classCount i ↔ ∀ c ∈ r.blocks, c ∉ live) := by
  have hlen : r.blocks.length = classCount i := by rw [Region.length_blocks, Region.blockCnt, hcls]
  rw [Region.count_of_cls hcls, ← hlen, countP_eq_length]
  exact ⟨countP_le_length, by simp only [decide_eq_true_eq]⟩

section
variable (hlayout : Layout descs regions) (hr : r ∈ regions)
include hlayout hr

theorem Layout.count_lt (live : List Nat) :
    r.count live < unsignedSize := by
  have hok := hlayout.ok r hr
  have hfits := hok.fits
  have htop := hok.top
  have hbase := hok.base_pos
  cases hcls : r.cls with
  | none =>
    simp only [Region.count, hcls, pgsize] at htop ⊢
    omega
  | some i =>
    have hle : r.blocks.countP (· ∉ live) ≤ r.blocks.length := countP_le_length
    have hmul : r.blockCnt * 16 ≤ r.blockCnt * r.blockLen := Nat.mul_le_mul_left _ hfits.1
    rw [Region.length_blocks] at hle
    rw [Region.count_of_cls hcls]
    omega

/-- **A block granted** changes the count of its region only. -/
theorem Layout.count_grant (hcls : r.cls = some i) (hb : b ∈ r.blocks) (hnot : b ∉ live) :
    0 < r.count live ∧
      ∀ q ∈ regions, q.count (b :: live) = update (Region.count live) r (r.count live - 1) q := by
  have hone := countP_cons_live (hlayout.ok r hr).nodup_blocks hb hnot
  rw [← Region.count_of_cls hcls, ← Region.count_of_cls hcls] at hone
  refine ⟨by omega, fun q hq => ?_⟩
  by_cases hne : q = r
  · subst hne
    rw [update_self]
    omega
  · rw [update_of_ne hne]
    refine Region.count_congr fun c hc => ?_
    have hcb : c ≠ b := by
      rintro rfl
      exact hne (hlayout.block_unique hq hr hc hb)
    simp [hcb]

/-- **A block given back** changes the count of its region only. -/
theorem Layout.count_drop (hcls : r.cls = some i) (hb : b ∈ r.blocks) (hlive : b ∈ live)
    (hnodup : live.Nodup) :
    ∀ q ∈ regions, q.count (live.erase b) = update (Region.count live) r (r.count live + 1) q := by
  intro q hq
  obtain ⟨hpos, hcount⟩ := hlayout.count_grant hr hcls hb (hnodup.not_mem_erase (a := b))
  have hsame : ∀ q : Region, q.count (b :: live.erase b) = q.count live := fun q =>
    Region.count_congr fun c _ => (perm_cons_erase hlive).mem_iff.symm
  have hq := hcount q hq
  have hr := hcount r hr
  rw [hsame, update_self] at hr
  rw [hsame] at hq
  by_cases hne : q = r
  · subst hne
    rw [update_self]
    omega
  · rw [update_of_ne hne] at hq ⊢
    exact hq.symm

end

end Account

/-! ## The invariant -/

/-- **The heap's invariant**: its memory shows the regions and the free lists, every block
is accounted for, and no region is kept without a live block. -/
structure Heap.Inv (s : Heap) (regions : List Region) (free : SizeClass → List Nat)
    (live : List Nat) : Prop where
  descCnt : s.descCnt = 7
  held : ∀ e, e ∈ s.held ↔ ∃ r ∈ regions, r.extent = e
  held_nodup : s.held.Nodup
  layout : Layout s.descs regions
  image : Image s.descs regions (Region.count live) free s.memory
  account : Account regions free live
  used : ∀ r ∈ regions, ∃ p ∈ r.blocks, p ∈ live

namespace Heap
variable {s : Heap} {regions : List Region} {free free' : SizeClass → List Nat} {live : List Nat}
  {r : Region} {b : Nat} {i : SizeClass}

/-! ## Taking pages and giving them back -/

/-- What `palloc_get_multiple` returns is the null pointer or a new region. -/
theorem Inv.pallocGetMultiple (h : s.Inv regions free live) (pageCnt found : Nat) :
    s.pallocGetMultiple pageCnt found = (s, 0) ∨
      0 < found ∧ 0 < pageCnt ∧
        s.pallocGetMultiple pageCnt found
          = ({ s with held := ⟨found, pgsize * pageCnt⟩ :: s.held }, found) ∧
        ∀ cls, (cls ≠ none → pageCnt = 1) → Layout s.descs (⟨found, pageCnt, cls⟩ :: regions) := by
  unfold Heap.pallocGetMultiple
  by_cases hfound : pageCnt ≠ 0 ∧ s.Unused ⟨found, pgsize * pageCnt⟩
  · rw [if_pos hfound]
    obtain ⟨hcnt, haligned, hpos, htop, hdescs, hheld⟩ := hfound
    refine .inr ⟨hpos, Nat.pos_of_ne_zero hcnt, rfl, fun cls hcls => ?_⟩
    refine ⟨h.layout.descs_pos, h.layout.descs_top, fun r hr => ?_, ?_⟩
    · rcases mem_cons.mp hr with rfl | hr
      · exact ⟨haligned, hpos, Nat.pos_of_ne_zero hcnt, htop, hcls, hdescs⟩
      · exact h.layout.ok r hr
    · refine pairwise_cons.mpr ⟨fun r hr => ?_, h.layout.apart⟩
      exact hheld _ ((h.held _).mpr ⟨r, hr, rfl⟩)
  · exact .inl (if_neg hfound)

/-- The new pages are held. -/
theorem Inv.held_cons (h : s.Inv regions free live) (hlayout : Layout s.descs (r :: regions)) :
    (∀ e, e ∈ r.extent :: s.held ↔ ∃ q ∈ r :: regions, q.extent = e) ∧
      (r.extent :: s.held).Nodup := by
  refine ⟨fun e => ?_, nodup_cons.mpr ⟨fun hmem => ?_, h.held_nodup⟩⟩
  · rw [mem_cons, h.held]
    simp [eq_comm]
  · obtain ⟨q, hq, heq⟩ := (h.held _).mp hmem
    have hbase := (hlayout.ok r mem_cons_self).base_mem
    exact (pairwise_cons.mp hlayout.apart).1 q hq r.base hbase (heq ▸ hbase)

variable {m : Memory}

/-- **Pages are given back**, those of a region whose blocks are neither live nor on a
list. -/
theorem Inv.pallocFreeMultiple {free' : SizeClass → List Nat}
    (hheld : ∀ e, e ∈ s.held ↔ ∃ r ∈ regions, r.extent = e) (hnodup : s.held.Nodup)
    (hdescCnt : s.descCnt = 7) (hlayout : Layout s.descs regions)
    (himage : Image s.descs regions (Region.count live) free' m)
    (haccount : Account (regions.erase r) free' live)
    (hused : ∀ q ∈ regions.erase r, ∃ p ∈ q.blocks, p ∈ live) (hr : r ∈ regions)
    (hnone : ∀ j, ∀ c ∈ free' j, c ∉ r.blocks) :
    ∃ s', pallocFreeMultiple { s with memory := m } r.base r.pages = some s' ∧
      s'.Inv (regions.erase r) free' live ∧
      SameBlocks (regions.erase r) (fun _ => True) m s'.memory := by
  have hok := hlayout.ok r hr
  have hmem : r.extent ∈ s.held := (hheld _).mpr ⟨r, hr, rfl⟩
  have hcond : ¬(r.base = 0 ∨ r.pages = 0) := by
    have hbase := hok.base_pos
    have hpages := hok.pages_pos
    omega
  refine ⟨{ s with memory := m.fill r.extent 0xcc, held := s.held.erase r.extent }, ?_,
    ⟨hdescCnt, fun e => ?_, hnodup.erase _, hlayout.erase r, ?_, haccount, hused⟩,
    fun q hq c hc _ x hx => Memory.fill_of_notMem fun hxr => ?_⟩
  · rw [Heap.pallocFreeMultiple, assert_of hok.aligned, some_bind, if_neg hcond]
    have hmem' : (⟨r.base, pgsize * r.pages⟩ : Extent) ∈ s.held := hmem
    rw [assert_of hmem', some_bind]
    rfl
  · rw [hnodup.mem_erase_iff, hheld]
    constructor
    · rintro ⟨hne, q, hq, rfl⟩
      refine ⟨q, (hlayout.nodup.mem_erase_iff).mpr ⟨?_, hq⟩, rfl⟩
      rintro rfl
      exact hne rfl
    · rintro ⟨q, hq, rfl⟩
      obtain ⟨hne, hq⟩ := hlayout.nodup.mem_erase_iff.mp hq
      refine ⟨fun heq => ?_, q, hq, rfl⟩
      have hbase := (hlayout.ok q hq).base_mem
      exact hlayout.apart_of_ne hq hr hne q.base hbase (heq ▸ hbase)
  · exact himage.giveUp hlayout hr hnone fun x hx => Memory.fill_of_notMem hx
  · obtain ⟨hne, hq⟩ := hlayout.nodup.mem_erase_iff.mp hq
    exact hlayout.apart_of_ne hq hr hne x (hlayout.mem_extent hq hc hx) hxr

/-! ## `malloc` -/

/-- **A block is taken from a free list.** -/
theorem popBlock_spec {rest : List Nat} (hlayout : Layout s.descs regions)
    (himage : Image s.descs regions (Region.count live) free s.memory)
    (haccount : Account regions free live) (hseq : free i = b :: rest) :
    ∃ m, s.popBlock (descAt s.descs i) = some ({ s with memory := m }, b) ∧
      Image s.descs regions (Region.count (b :: live)) (update free i rest) m ∧
      Account regions (update free i rest) (b :: live) ∧
      SameBlocks regions (· ∉ free i) s.memory m := by
  obtain ⟨⟨r, hr, hcls, hb⟩, hnot⟩ := (haccount.free_iff i b).mp (by simp [hseq])
  obtain ⟨m, hpop, himage', hsame⟩ := himage.popFront hlayout hseq
  obtain ⟨hpos, hcount⟩ := hlayout.count_grant hr hcls hb hnot
  have hlt := hlayout.count_lt hr live
  refine ⟨Arena.setFreeCnt m r.base (r.count live - 1), ?_, ?_,
    haccount.take hlayout hseq (himage.nodup_free i), hsame.trans
    (.of_header hlayout hr fun x => Arena.setFreeCnt_of_notMem)⟩
  · have hfreeCnt := (himage'.headers r hr).freeCnt
    rw [freeLists] at hpop
    simp only [popBlock, hpop, himage'.blockToArena hlayout hr hb, hfreeCnt, decrement_eq hpos,
      some_bind]
  · exact (himage'.setFreeCnt hlayout hr (by omega)).recount hcount

/-- The loop over the descriptors finds a class whose blocks are large enough. -/
theorem Inv.find_desc (h : s.Inv regions free live) (size : Nat) :
    let found := (List.range s.descCnt).find? fun k => size ≤ Desc.blockSize s.memory (s.desc k)
    found = none ∨ ∃ i : SizeClass, size ≤ classSize i ∧ found = some i.val := by
  intro found
  cases hfind : found with
  | none => exact .inl rfl
  | some k =>
    have hk : k < 7 := by
      rw [← h.descCnt]
      exact mem_range.mp (mem_of_find?_eq_some hfind)
    have hsize := find?_some hfind
    simp only [decide_eq_true_eq] at hsize
    exact .inr ⟨⟨k, hk⟩, by rwa [← h.image.blockSize ⟨k, hk⟩], rfl⟩

/-- The number of pages for a big block is enough for it and its header, unless adding
the header to the size wraps round. -/
theorem pages_enough {size : Nat}
    (hsize : size + sizeofArena ≤ unsignedSize)
    (hpos : 0 < divRoundUp ((size + sizeofArena) % unsignedSize) pgsize) :
    size + sizeofArena
      ≤ pgsize * divRoundUp ((size + sizeofArena) % unsignedSize) pgsize := by
  simp only [divRoundUp, sizeofArena, unsignedSize, pgsize] at *
  omega

theorem Inv.used_cons (h : s.Inv regions free live) (b : Nat) :
    ∀ q ∈ regions, ∃ p ∈ q.blocks, p ∈ b :: live := fun q hq =>
  (h.used q hq).imp fun _ hp => ⟨hp.1, mem_cons_of_mem b hp.2⟩

/-- **A big block** is a region of its own. -/
theorem Inv.addBig (h : s.Inv regions free live) {pageCnt found : Nat}
    (hlayout : Layout s.descs (⟨found, pageCnt, none⟩ :: regions)) (hcnt : pageCnt < unsignedSize) :
    Inv { s with
        memory := Arena.init s.memory found 0 pageCnt
        held := ⟨found, pgsize * pageCnt⟩ :: s.held }
      (⟨found, pageCnt, none⟩ :: regions) free ((found + sizeofArena) :: live) := by
  obtain ⟨hheld, hnodup⟩ := h.held_cons hlayout
  set r : Region := ⟨found, pageCnt, none⟩ with hr
  have hb : found + sizeofArena ∈ r.blocks :=
    Region.mem_blocks.mpr ⟨0, Nat.zero_lt_one, by simp [hr]⟩
  refine ⟨h.descCnt, hheld, hnodup, hlayout, ?_, h.account.addBig hlayout rfl hb,
    forall_mem_cons.mpr ⟨⟨_, hb, mem_cons_self⟩, h.used_cons _⟩⟩
  refine (h.image.init hlayout hcnt).recount fun q hq => ?_
  by_cases hne : q = r
  · rw [hne, update_self, Region.count]
  · rw [update_of_ne hne]
    refine Region.count_congr fun c hc => ?_
    have hcb : c ≠ found + sizeofArena := by
      rintro rfl
      exact hne (hlayout.block_unique hq mem_cons_self hc hb)
    simp [hcb]

/-- **An arena is added**, and all its blocks are free. -/
theorem Inv.addArena (h : s.Inv regions free live) {found : Nat}
    (hlayout : Layout s.descs (⟨found, 1, some i⟩ :: regions)) (hempty : free i = []) :
    let r : Region := ⟨found, 1, some i⟩
    ∃ m, pushBlocks (Arena.init s.memory found (descAt s.descs i) (classCount i))
        (descAt s.descs i) found = some m ∧
      Image s.descs (r :: regions) (Region.count live) (update free i r.blocks) m ∧
      Account (r :: regions) (update free i r.blocks) live ∧
      SameBlocks (r :: regions) (· ∈ live) s.memory m := by
  intro r
  have hmem : r ∈ r :: regions := mem_cons_self
  have hnot : ∀ b ∈ r.blocks, b ∉ live := fun b hb => h.account.notMem_live hlayout hb
  have hall : r.count live = classCount i := by
    rw [Region.count_of_cls (i := i) rfl, countP_eq_length.mpr (by simpa using hnot),
      Region.length_blocks]
    rfl
  have hlt : classCount i < unsignedSize := hall ▸ hlayout.count_lt hmem live
  have himage : Image s.descs (r :: regions) (Region.count live) free
      (Arena.init s.memory found (descAt s.descs i) (classCount i)) := by
    refine (h.image.init hlayout hlt).recount fun q hq => ?_
    by_cases hne : q = r
    · rw [hne, update_self, hall]
    · rw [update_of_ne hne]
  have hfree : ∀ b ∈ r.blocks, ∀ j, b ∉ free j := by
    intro b hb j hbj
    obtain ⟨⟨q, hq, -, hbq⟩, -⟩ := (h.account.free_iff j b).mp hbj
    have heq := hlayout.block_unique hmem (mem_cons_of_mem r hq) hb hbq
    exact (nodup_cons.mp hlayout.nodup).1 (heq ▸ hq : r ∈ regions)
  obtain ⟨m, hcode, himage', hsame⟩ := himage.pushBlocks hlayout hmem rfl hempty hfree
  refine ⟨m, hcode, himage', h.account.addArena hlayout rfl hempty, SameBlocks.trans
    (.of_header hlayout hmem fun x => Arena.init_of_notMem)
    (hsame.mono fun q hq c _ hc => ⟨hq, fun hcr => hnot c hcr hc⟩)⟩

/-- **`malloc`** fails and changes nothing, or returns a new live block, large enough
unless adding the header to the size wraps round.  The regions stay, and the blocks that
were live keep their bytes. -/
theorem Inv.malloc (h : s.Inv regions free live) (size found : Nat) :
    ∃ s' p, s.malloc size found = some (s', p) ∧
      (p = 0 ∧ s' = s ∨
        0 < p ∧ ∃ regions' free', s'.Inv regions' free' (p :: live) ∧
          (∃ r ∈ regions', p ∈ r.blocks ∧
            (size + sizeofArena ≤ unsignedSize → size ≤ r.blockLen)) ∧
          (∀ q ∈ regions, q ∈ regions') ∧ SameBlocks regions (· ∈ live) s.memory s'.memory) := by
  unfold Heap.malloc
  by_cases hzero : size = 0
  · exact ⟨s, 0, if_pos hzero, .inl ⟨rfl, rfl⟩⟩
  rw [if_neg hzero]
  rcases h.find_desc size with hfind | ⟨i, hsize, hfind⟩
  · rw [hfind]
    simp only
    rcases h.pallocGetMultiple (divRoundUp ((size + sizeofArena) % unsignedSize) pgsize) found with
      hfail | ⟨hpos, hcnt, hget, hlayout⟩
    · rw [hfail]
      exact ⟨s, 0, rfl, .inl ⟨rfl, rfl⟩⟩
    · rw [hget]
      have hlayout := hlayout none (by simp)
      have hlt : divRoundUp ((size + sizeofArena) % unsignedSize) pgsize < unsignedSize := by
        simp only [divRoundUp, unsignedSize, pgsize]
        omega
      refine ⟨_, _, if_neg (Nat.ne_of_gt hpos), .inr ⟨by simp [sizeofArena], _, _,
        h.addBig hlayout hlt, ⟨_, mem_cons_self, ?_, fun hfits => ?_⟩,
        fun q hq => mem_cons_of_mem _ hq, fun q hq c hc hcl x hx => ?_⟩⟩
      · exact Region.mem_blocks.mpr ⟨0, Nat.zero_lt_one, by simp⟩
      · have := pages_enough hfits hcnt
        simp only [Region.blockLen]
        omega
      · exact SameBlocks.of_header hlayout mem_cons_self
          (fun x => Arena.init_of_notMem) q (mem_cons_of_mem _ hq) c hc hcl x hx
  · rw [hfind]
    simp only
    have hdesc : s.desc i.val = descAt s.descs i := rfl
    have hempty := h.image.lists.represents.listEmpty_iff i
    rw [freeLists] at hempty
    rw [hdesc]
    by_cases hnil : free i = []
    · rw [if_pos (hempty.mpr hnil)]
      rcases h.pallocGetMultiple 1 found with hfail | ⟨hpos, -, hget, hlayout⟩
      · rw [hfail]
        exact ⟨s, 0, rfl, .inl ⟨rfl, rfl⟩⟩
      · rw [hget]
        have hlayout := hlayout (some i) fun _ => rfl
        obtain ⟨m, hpush, himage, haccount, hsame⟩ := h.addArena hlayout hnil
        obtain ⟨hheld, hnodup⟩ := h.held_cons hlayout
        obtain ⟨b, rest, hseq⟩ : ∃ b rest, Region.blocks ⟨found, 1, some i⟩ = b :: rest := by
          refine exists_cons_of_ne_nil fun hnone => ?_
          have hlen := congrArg List.length hnone
          have hcnt := (hlayout.ok _ mem_cons_self).fits.2.1
          rw [Region.length_blocks, length_nil] at hlen
          omega
        have hb : b ∈ Region.blocks ⟨found, 1, some i⟩ := by simp [hseq]
        obtain ⟨m', hpop, himage', haccount', hsame'⟩ := popBlock_spec
          (s := { s with memory := m, held := ⟨found, pgsize * 1⟩ :: s.held }) hlayout himage
          haccount (by rw [update_self, hseq])
        refine ⟨{ s with memory := m', held := ⟨found, pgsize * 1⟩ :: s.held }, b, ?_,
          .inr ⟨hlayout.block_pos mem_cons_self hb, _, _,
            ⟨h.descCnt, hheld, hnodup, hlayout, himage', haccount',
              forall_mem_cons.mpr ⟨⟨b, hb, mem_cons_self⟩, h.used_cons b⟩⟩,
            ⟨_, mem_cons_self, hb, fun _ => hsize⟩, fun q hq => mem_cons_of_mem _ hq,
            (hsame.trans (hsame'.mono fun q hq c _ hc =>
              ⟨hq, haccount.notMem_free hc i⟩)).mono fun q hq c _ hc =>
              ⟨mem_cons_of_mem _ hq, hc⟩⟩⟩
        rw [if_neg (Nat.ne_of_gt hpos)]
        simp only [h.image.blocksPerArena i, hpush, some_bind]
        exact hpop
    · rw [if_neg fun hcode => hnil (hempty.mp hcode)]
      obtain ⟨b, rest, hseq⟩ := exists_cons_of_ne_nil hnil
      obtain ⟨⟨r, hr, hcls, hb⟩, -⟩ := (h.account.free_iff i b).mp (by simp [hseq])
      obtain ⟨m, hcode, himage, haccount, hsame⟩ := popBlock_spec h.layout h.image h.account hseq
      refine ⟨{ s with memory := m }, b, hcode, .inr ⟨h.layout.block_pos hr hb, _, _,
        ⟨h.descCnt, h.held, h.held_nodup, h.layout, himage, haccount, h.used_cons b⟩,
        ⟨r, hr, hb, fun _ => ?_⟩, fun _ hq => hq,
        hsame.mono fun q hq c _ hc => ⟨hq, h.account.notMem_free hc i⟩⟩⟩
      rwa [Region.blockLen, hcls]

/-! ## `free` -/

section
variable (h : s.Inv regions free live)
include h

/-- The other regions keep their live blocks. -/
theorem Inv.used_erase (hr : r ∈ regions) (hb : b ∈ r.blocks) {q : Region} (hq : q ∈ regions)
    (hne : q ≠ r) : ∃ p ∈ q.blocks, p ∈ live.erase b := by
  obtain ⟨p, hp, hlive⟩ := h.used q hq
  refine ⟨p, hp, h.account.nodup.mem_erase_iff.mpr ⟨?_, hlive⟩⟩
  rintro rfl
  exact hne (h.layout.block_unique hq hr hp hb)

theorem Inv.freeBig (hr : r ∈ regions) (hcls : r.cls = none) (hb : b ∈ r.blocks) :
    ∃ s', s.pallocFreeMultiple r.base r.pages = some s' ∧
      s'.Inv (regions.erase r) free (live.erase b) ∧
      SameBlocks (regions.erase r) (fun _ => True) s.memory s'.memory := by
  have hnone : ∀ j, ∀ c ∈ free j, c ∉ r.blocks := by
    intro j c hc hcr
    have := h.account.cls_unique h.layout hr hcr hc
    rw [hcls] at this
    exact absurd this (by simp)
  have hsame : ∀ q ∈ regions, q.count (live.erase b) = q.count live := by
    intro q hq
    by_cases hne : q = r
    · simp only [hne, Region.count, hcls]
    · refine Region.count_congr fun c hc => ?_
      rw [h.account.nodup.mem_erase_iff]
      refine and_iff_right ?_
      rintro rfl
      exact hne (h.layout.block_unique hq hr hc hb)
  have hdead : ∀ c ∈ r.blocks, c ∉ live.erase b := by
    intro c hc
    have hfirst : ∀ c ∈ r.blocks, c = r.base + sizeofArena := by
      intro c hc
      obtain ⟨k, hk, rfl⟩ := Region.mem_blocks.mp hc
      simp only [Region.blockCnt, hcls, Nat.lt_one_iff] at hk
      simp [hk]
    rw [hfirst c hc, ← hfirst b hb]
    exact h.account.nodup.not_mem_erase
  refine Inv.pallocFreeMultiple h.held h.held_nodup h.descCnt h.layout (h.image.recount hsame) ?_
    (fun q hq => ?_) hr hnone
  · refine (h.account.dropBig h.layout hr hcls hb).giveUp h.layout hr hdead fun j c => ?_
    exact ⟨fun hc => ⟨hc, hnone j c hc⟩, fun hc => hc.1⟩
  · obtain ⟨hne, hq⟩ := h.layout.nodup.mem_erase_iff.mp hq
    exact h.used_erase hr hb hq hne

/-- **An arena whose last live block has been freed** is taken off the free list and given
back. -/
theorem Inv.freeArena (himage : Image s.descs regions (Region.count (live.erase b)) free' m)
    (haccount : Account regions free' (live.erase b)) (hr : r ∈ regions) (hcls : r.cls = some i)
    (hb : b ∈ r.blocks) (hdead : ∀ c ∈ r.blocks, c ∉ live.erase b) :
    ∃ m', removeBlocks m (descAt s.descs i) r.base = some m' ∧
      ∃ s', Heap.pallocFreeMultiple { s with memory := m' } r.base 1 = some s' ∧
        (∃ free'', s'.Inv (regions.erase r) free'' (live.erase b)) ∧
        SameBlocks (regions.erase r) (· ∈ live.erase b) m s'.memory := by
  obtain ⟨m', hcode, himage', hsame⟩ := himage.removeBlocks h.layout hr hcls fun c hc =>
    (haccount.free_iff i c).mpr ⟨⟨r, hr, hcls, hc⟩, hdead c hc⟩
  refine ⟨m', hcode, ?_⟩
  have hfree : ∀ j c, c ∈ update free' i ((free' i).filter (· ∉ r.blocks)) j ↔
      c ∈ free' j ∧ c ∉ r.blocks := by
    intro j c
    by_cases hj : j = i
    · subst hj
      rw [update_self, mem_filter, decide_eq_true_eq]
    · rw [update_of_ne hj]
      refine ⟨fun hc => ⟨hc, fun hcr => ?_⟩, fun hc => hc.1⟩
      have := haccount.cls_unique h.layout hr hcr hc
      rw [hcls] at this
      exact hj (Option.some.inj this).symm
  have hone := (h.layout.ok r hr).arena (by simp [hcls])
  obtain ⟨s', hpalloc, hinv, hsame'⟩ := Inv.pallocFreeMultiple h.held h.held_nodup h.descCnt h.layout
    himage' (haccount.giveUp h.layout hr hdead hfree)
    (fun q hq => (h.layout.nodup.mem_erase_iff.mp hq).elim fun hne hq =>
      h.used_erase hr hb hq hne) hr fun j c hc => ((hfree j c).mp hc).2
  rw [hone] at hpalloc
  refine ⟨s', hpalloc, ⟨_, hinv⟩, SameBlocks.trans (hsame.mono fun q hq c _ hc => ?_)
    (hsame'.mono fun q hq c _ _ => ⟨hq, trivial⟩)⟩
  exact ⟨mem_of_mem_erase hq, haccount.notMem_free hc i⟩

/-- **`free`** of a live block.  The regions with other live blocks stay, and those blocks
keep their bytes. -/
theorem Inv.freeBlock (hlive : b ∈ live) :
    ∃ s', s.free b = some s' ∧ ∃ regions' free', s'.Inv regions' free' (live.erase b) ∧
      (∀ q ∈ regions, ∀ c ∈ q.blocks, c ∈ live.erase b → q ∈ regions') ∧
      SameBlocks regions' (· ∈ live.erase b) s.memory s'.memory := by
  obtain ⟨r, hr, hb⟩ := h.account.region b hlive
  have hpos := h.layout.block_pos hr hb
  have hheader := h.image.headers r hr
  rw [Heap.free, if_neg (Nat.ne_of_gt hpos)]
  simp only [h.image.blockToArena h.layout hr hb, hheader.desc, some_bind]
  cases hcls : r.cls with
  | none =>
    obtain ⟨s', hcode, hinv, hsame⟩ := h.freeBig hr hcls hb
    refine ⟨s', ?_, _, _, hinv, fun q hq c hc hcl => ?_, hsame.mono fun q hq _ _ _ => ⟨hq, trivial⟩⟩
    have hcnt : Arena.freeCnt s.memory r.base = r.pages := by
      rw [hheader.freeCnt, Region.count, hcls]
    · simp only [Region.descPtr, hcls, ne_eq, not_true_eq_false, if_false, hcnt, hcode]
    · exact hinv.account.region_of_sub h.layout (fun q => mem_of_mem_erase) hq hc hcl
  | some i =>
    have hdesc : descAt s.descs i ≠ 0 := by
      have := h.layout.descs_pos
      simp only [descAt]
      omega
    have hlen : r.blockLen = classSize i := by simp only [Region.blockLen, hcls]
    -- the block is overwritten, goes on the free list, and the count goes up
    have himage₁ : Image s.descs regions (Region.count live) free
        (s.memory.fill ⟨b, classSize i⟩ 0xcc) :=
      h.image.write h.layout hr hb (h.account.notMem_free hlive) fun x hx =>
        Memory.fill_of_notMem (by rwa [← hlen])
    obtain ⟨m₂, hpush, himage₂, hsame₂⟩ :=
      himage₁.pushFront h.layout hr hb (h.account.notMem_free hlive) i
    have hcount := h.layout.count_drop hr hcls hb hlive h.account.nodup
    have hlt := h.layout.count_lt hr (live.erase b)
    have hcountr := hcount r hr
    rw [update_self] at hcountr
    have himage₃ := (himage₂.setFreeCnt h.layout hr (hcountr ▸ hlt)).recount hcount
    have haccount := h.account.put h.layout hr hcls hb hlive
    have hsame₃ : SameBlocks regions (· ∈ live.erase b) s.memory
        (Arena.setFreeCnt m₂ r.base (r.count live + 1)) := by
      have hsame₁ : SameBlocks regions (· ≠ b) s.memory (s.memory.fill ⟨b, classSize i⟩ 0xcc) :=
        .of_block h.layout hr hb fun x hx => Memory.fill_of_notMem (by rwa [← hlen])
      have hother : ∀ c, c ∈ live.erase b → c ≠ b ∧ c ∉ free i := fun c hc =>
        ⟨(h.account.nodup.mem_erase_iff.mp hc).1,
          h.account.notMem_free (mem_of_mem_erase hc) i⟩
      refine (hsame₁.mono fun q hq c _ hc => ⟨hq, (hother c hc).1⟩).trans
        ((hsame₂.mono fun q hq c _ hc => ⟨hq, hother c hc⟩).trans ?_)
      exact .of_header h.layout hr fun x => Arena.setFreeCnt_of_notMem
    have hcnt₂ := (himage₂.headers r hr).freeCnt
    have hcnt₃ := (himage₃.headers r hr).freeCnt
    rw [freeLists] at hpush
    simp only [Region.descPtr, hcls, if_pos hdesc, h.image.blockSize i, hpush, some_bind, hcnt₂,
      increment_eq (hcountr ▸ hlt), hcnt₃, himage₃.blocksPerArena i]
    obtain ⟨hle, hdead⟩ := r.count_le_iff (live.erase b) hcls
    by_cases hall : classCount i ≤ r.count (live.erase b)
    · have heq := Nat.le_antisymm hle hall
      obtain ⟨m₄, hremove, s', hpalloc, ⟨free', hinv⟩, hsame₄⟩ :=
        h.freeArena himage₃ haccount hr hcls hb (hdead.mp heq)
      refine ⟨s', ?_, _, _, hinv, fun q hq c hc hcl => ?_, SameBlocks.trans ?_ hsame₄⟩
      · rw [if_pos hall, assert_of heq, some_bind, hremove, some_bind, hpalloc]
      · exact hinv.account.region_of_sub h.layout (fun q => mem_of_mem_erase) hq hc hcl
      · exact hsame₃.mono fun q hq c _ hcl => ⟨mem_of_mem_erase hq, hcl⟩
    · refine ⟨_, if_neg hall, _, _, ⟨h.descCnt, h.held, h.held_nodup, h.layout, himage₃, haccount,
        fun q hq => ?_⟩, fun q hq _ _ _ => hq, hsame₃⟩
      by_cases hne : q = r
      · subst hne
        by_contra hnone
        exact hall (Nat.le_of_eq (hdead.mpr fun c hc hcl => hnone ⟨c, hc, hcl⟩).symm)
      · exact h.used_erase hr hb hq hne

end

/-! ## Writes to blocks -/

section
variable (h : s.Inv regions free live) (hr : r ∈ regions) (hb : b ∈ r.blocks)
include h hr hb

theorem Inv.usable_eq :
    blockSize s.memory b = some r.blockLen ∧ s.usable b = ⟨b, r.blockLen⟩ := by
  have hsize := h.image.blockSize_eq h.layout hr hb fun hcls => by rw [Region.count, hcls]
  exact ⟨hsize, by rw [usable, hsize, Option.getD_some]⟩

theorem Inv.usable_within : (s.usable b).Within r.extent := by
  obtain ⟨hlow, hhigh⟩ := (h.layout.ok r hr).block_within hb
  rw [(h.usable_eq hr hb).2]
  exact ⟨Nat.le_trans (Nat.le_add_right _ _) hlow, hhigh⟩

/-- **A live block may be overwritten.** -/
theorem Inv.write (hlive : b ∈ live)
    (hframe : ∀ x, x ∉ (⟨b, r.blockLen⟩ : Extent) → m x = s.memory x) :
    Inv { s with memory := m } regions free live :=
  ⟨h.descCnt, h.held, h.held_nodup, h.layout,
    h.image.write h.layout hr hb (h.account.notMem_free hlive) hframe, h.account, h.used⟩

end

/-- **Memory outside the heap may be overwritten.** -/
theorem Inv.write_outside (h : s.Inv regions free live)
    (hframe : ∀ x, (x ∈ descsAt s.descs ∨ ∃ e ∈ s.held, x ∈ e) → m x = s.memory x) :
    Inv { s with memory := m } regions free live := by
  have hextent : ∀ q ∈ regions, ∀ x ∈ q.extent, m x = s.memory x := fun q hq x hx =>
    hframe x (.inr ⟨q.extent, (h.held _).mpr ⟨q, hq, rfl⟩, hx⟩)
  refine ⟨h.descCnt, h.held, h.held_nodup, h.layout, ?_, h.account, h.used⟩
  refine h.image.congr h.layout (fun x hx => hframe x (.inl hx)) (fun q hq x hx => ?_)
    fun i c _ q hq hcq x hx => ?_
  · exact hextent q hq x (h.layout.header_mem_extent hq hx)
  · exact hextent q hq x (h.layout.mem_extent hq hcq hx)

theorem notMem_of_len_le {p n len x : Nat} (hle : n ≤ len) (hx : x ∉ (⟨p, len⟩ : Extent)) :
    x ∉ (⟨p, n⟩ : Extent) := by
  simp only [Extent.mem_iff] at hx ⊢
  omega

/-- **`calloc`** fails and changes nothing, or returns a new live block. -/
theorem Inv.calloc (h : s.Inv regions free live) (x y found : Nat)
    (hfits : x * y % unsignedSize + sizeofArena ≤ unsignedSize) :
    ∃ s' p, s.calloc x y found = some (s', p) ∧
      (p = 0 ∧ s' = s ∨ 0 < p ∧ ∃ regions' free', s'.Inv regions' free' (p :: live)) := by
  unfold Heap.calloc
  by_cases hover : x * y % unsignedSize < x ∨ x * y % unsignedSize < y
  · exact ⟨s, 0, if_pos hover, .inl ⟨rfl, rfl⟩⟩
  simp only [if_neg hover]
  obtain ⟨s', p, hcode, ⟨rfl, rfl⟩ | ⟨hpos, regions', free', hinv, ⟨r, hr, hb, hlen⟩, -⟩⟩ :=
    h.malloc (x * y % unsignedSize) found
  · exact ⟨s', 0, by rw [hcode]; rfl, .inl ⟨rfl, rfl⟩⟩
  · have hinv' := hinv.write (m := s'.memory.fill ⟨p, x * y % unsignedSize⟩ 0) hr hb
      mem_cons_self fun z hz => Memory.fill_of_notMem (notMem_of_len_le (hlen hfits) hz)
    refine ⟨_, p, ?_, .inr ⟨hpos, regions', free', hinv'⟩⟩
    simp only [hcode, some_bind, ne_eq, Nat.ne_of_gt hpos, not_false_eq_true, if_true]

/-- **`realloc`** of a live block fails and changes nothing, or moves the block: its bytes,
as many as there is room for, are in the new one, and the other live blocks are as they
were. -/
theorem Inv.realloc {newSize : Nat} (h : s.Inv regions free live) (hr : r ∈ regions)
    (hb : b ∈ r.blocks) (hlive : b ∈ live) (found : Nat) (hnew : newSize ≠ 0)
    (hfits : newSize + sizeofArena ≤ unsignedSize) :
    ∃ s' p, s.realloc b newSize found = some (s', p) ∧
      (p = 0 ∧ s' = s ∨
        0 < p ∧ p ∉ live ∧ ∃ regions' free', s'.Inv regions' free' (p :: live.erase b) ∧
          (∃ q ∈ regions', p ∈ q.blocks ∧ newSize ≤ q.blockLen) ∧
          (∀ q ∈ regions, ∀ c ∈ q.blocks, c ∈ live.erase b → q ∈ regions' ∧
            ∀ x ∈ (⟨c, q.blockLen⟩ : Extent), s'.memory x = s.memory x) ∧
          ∀ k, k < newSize → k < r.blockLen → s'.memory (p + k) = s.memory (b + k)) := by
  unfold Heap.realloc
  rw [if_neg hnew]
  obtain ⟨s', p, hcode, ⟨rfl, rfl⟩ | ⟨hpos, regions', free', hinv, ⟨q, hq, hp, hlen⟩, hstay,
    hsame⟩⟩ := h.malloc newSize found
  · exact ⟨s', 0, by simp [hcode], .inl ⟨rfl, rfl⟩⟩
  · have hold : b ∈ p :: live := mem_cons_of_mem p hlive
    have hnot := (nodup_cons.mp hinv.account.nodup).1
    have hne : p ≠ b := by
      rintro rfl
      exact hnot hlive
    have herase : (p :: live).erase b = p :: live.erase b :=
      erase_cons_tail (by simpa using hne)
    have hlen := hlen hfits
    -- what is copied fits in the new block
    have hmin : (if newSize < r.blockLen then newSize else r.blockLen) ≤ q.blockLen := by
      split <;> omega
    have hframe : ∀ z, z ∉ (⟨p, q.blockLen⟩ : Extent) →
        s'.memory.copy p b (if newSize < r.blockLen then newSize else r.blockLen) z
          = s'.memory z := fun z hz => Memory.copy_of_notMem (notMem_of_len_le hmin hz)
    have hsame' := SameBlocks.of_block hinv.layout hq hp hframe
    obtain ⟨s'', hfree, regions'', free'', hinv'', hstay'', hsame''⟩ :=
      (hinv.write hq hp mem_cons_self hframe).freeBlock hold
    rw [herase] at hinv'' hstay'' hsame''
    refine ⟨s'', p, ?_, .inr ⟨hpos, hnot, regions'', free'', hinv'',
      ⟨q, hstay'' q hq p hp mem_cons_self, hp, hlen⟩, fun t ht c hc hcl => ?_,
      fun k hk hkr => ?_⟩⟩
    · have hcond : b ≠ 0 ∧ p ≠ 0 := ⟨Nat.ne_of_gt (h.layout.block_pos hr hb), Nat.ne_of_gt hpos⟩
      simp only [hcode, some_bind, if_pos hcond, (hinv.usable_eq (hstay r hr) hb).1, hfree]
    · have hcl' := mem_of_mem_erase hcl
      have hcp : c ≠ p := fun heq => hnot (heq ▸ hcl')
      have ht' := hstay'' t (hstay t ht) c hc (mem_cons_of_mem p hcl)
      refine ⟨ht', fun x hx => ?_⟩
      exact (hsame'' t ht' c hc (mem_cons_of_mem p hcl) x hx).trans
        ((hsame' t (hstay t ht) c hc hcp x hx).trans (hsame t ht c hc hcl' x hx))
    · have hmem : p + k ∈ (⟨p, q.blockLen⟩ : Extent) :=
        ⟨Nat.le_add_right p k, Nat.add_lt_add_left (Nat.lt_of_lt_of_le hk hlen) p⟩
      have hcopied : p + k ∈
          (⟨p, if newSize < r.blockLen then newSize else r.blockLen⟩ : Extent) :=
        ⟨Nat.le_add_right p k, Nat.add_lt_add_left (by split <;> assumption) p⟩
      have hread : b + k ∈ (⟨b, r.blockLen⟩ : Extent) :=
        ⟨Nat.le_add_right b k, Nat.add_lt_add_left hkr b⟩
      refine (hsame'' q (hstay'' q hq p hp mem_cons_self) p hp mem_cons_self _ hmem).trans
        ((if_pos hcopied).trans ?_)
      rw [Nat.add_sub_cancel_left]
      exact hsame r hr b hb hlive _ hread

/-! ## `malloc_init` -/

/-- A descriptor with an empty free list. -/
structure EmptyDesc (m : Memory) (d size : Nat) : Prop where
  blockSize : Desc.blockSize m d = size
  blocksPerArena : Desc.blocksPerArena m d = (pgsize - sizeofArena) / size
  head : links m (Desc.freeList d).head = ⟨none, some (Desc.freeList d).tail⟩
  tail : links m (Desc.freeList d).tail = ⟨some (Desc.freeList d).head, none⟩

theorem initDesc_spec (m : Memory) {d size : Nat} (hd : 0 < d) (htop : d + 24 ≤ unsignedSize)
    (hsize : size < unsignedSize) :
    EmptyDesc (initDesc m d size) d size ∧
      ∀ x, x ∉ (⟨d, 24⟩ : Extent) → initDesc m d size x = m x := by
  have hcnt : (pgsize - sizeofArena) / size < unsignedSize :=
    Nat.lt_of_le_of_lt (Nat.div_le_self _ _) (by decide)
  have hpointer : ∀ v, 0 < v → MemoryList.pointer v = some v := fun v hv => if_neg (Nat.ne_of_gt hv)
  simp only [initDesc, MemoryList.listInit, MemoryList.setPrev, MemoryList.setNext, Desc.freeList,
    Option.getD_some, Option.getD_none]
  unfold unsignedSize at *
  refine ⟨⟨?_, ?_, ?_, ?_⟩, fun x hx => ?_⟩
  · simp (disch := omega) only [Desc.blockSize, Memory.word_setWord_of_le, Memory.word_setWord]
  · simp (disch := omega) only [Desc.blocksPerArena, Memory.word_setWord_of_le, Memory.word_setWord]
  rotate_right
  · rw [Extent.mem_iff] at hx
    iterate 6 rw [Memory.setWord_of_notMem (by rw [Memory.mem_wordAt]; simp only at hx; omega)]
  all_goals
    simp (disch := omega) only [links, Desc.freeList, Memory.word_setWord_of_le,
      Memory.word_setWord, hpointer]
    rfl

theorem EmptyDesc.congr {m m' : Memory} {d size : Nat} (h : EmptyDesc m d size)
    (heq : ∀ x ∈ (⟨d, 24⟩ : Extent), m' x = m x) : EmptyDesc m' d size := by
  have hword : ∀ k, k ≤ 20 → m'.word (d + k) = m.word (d + k) := by
    intro k hk
    refine Memory.word_congr fun x hx => heq x ?_
    rw [Memory.mem_wordAt] at hx
    simp only [Extent.mem_iff]
    omega
  have hlinks : ∀ k, k ≤ 16 → links m' (d + k) = links m (d + k) := by
    intro k hk
    rw [links, links, hword k (by omega), Nat.add_assoc, hword (k + 4) (by omega)]
  exact ⟨(hword 0 (by decide)).trans h.blockSize, (hword 4 (by decide)).trans h.blocksPerArena,
    (hlinks 8 (by decide)).trans h.head, (hlinks 16 (by decide)).trans h.tail⟩

/-- The loop of `malloc_init` from its `k`-th round on. -/
theorem initLoop_spec (n : Nat) {k unused : Nat} {s : Heap} (hn : k + n = 7)
    (hunused : n ≤ unused) (hk : s.descCnt = k) (hpos : 0 < s.descs)
    (htop : s.descs + sizeofDesc * 10 ≤ unsignedSize)
    (hdone : ∀ i : SizeClass, i.val < k → EmptyDesc s.memory (descAt s.descs i) (classSize i)) :
    ∃ m, initLoop unused s (16 <<< k) = some { s with memory := m, descCnt := 7 } ∧
      ∀ i : SizeClass, EmptyDesc m (descAt s.descs i) (classSize i) := by
  induction n generalizing k unused s with
  | zero =>
    obtain rfl : k = 7 := by omega
    refine ⟨s.memory, ?_, fun i => hdone i i.isLt⟩
    rw [initLoop.eq_def, if_neg (by decide), ← hk]
  | succ n ih =>
    cases unused with
    | zero => omega
    | succ unused =>
    have hlt : k < 7 := by omega
    have hround : 16 <<< k < pgsize / 2 := by
      have : ∀ k : Fin 7, 16 <<< k.val < pgsize / 2 := by decide
      exact this ⟨k, hlt⟩
    have hdesc : s.desc s.descCnt = descAt s.descs ⟨k, hlt⟩ := by rw [hk]; rfl
    have hd : 0 < s.desc s.descCnt ∧ s.desc s.descCnt + 24 ≤ unsignedSize := by
      rw [hdesc]
      simp only [descAt, sizeofDesc] at htop ⊢
      omega
    have hsize : 16 <<< k < unsignedSize := Nat.lt_trans hround (by decide)
    obtain ⟨hnew, hframe⟩ := initDesc_spec s.memory hd.1 hd.2 hsize
    have hdouble : 16 <<< k * 2 = 16 <<< (k + 1) := by
      rw [Nat.shiftLeft_succ, Nat.mul_comm]
    rw [initLoop, if_pos hround, hdouble]
    refine @ih (k + 1) unused
      { s with memory := initDesc s.memory (s.desc s.descCnt) (16 <<< k), descCnt := s.descCnt + 1 }
      (by omega) (by omega) (by simp only [hk]) hpos htop fun i hi => ?_
    by_cases heq : i.val = k
    · obtain rfl : i = ⟨k, hlt⟩ := Fin.ext heq
      exact hdesc ▸ hnew
    · refine (hdone i (by omega)).congr fun x hx => hframe x ?_
      rw [hdesc]
      simp only [Extent.mem_iff, descAt, sizeofDesc] at hx ⊢
      omega

/-- **The heap after `malloc_init`** is empty. -/
theorem mallocInit_spec (memory : Memory) {descs : Nat} (hpos : 0 < descs)
    (htop : descs + sizeofDesc * 10 ≤ unsignedSize) :
    ∃ s, mallocInit memory descs = some s ∧ s.Inv [] (fun _ => []) [] := by
  obtain ⟨m, hcode, hempty⟩ := @initLoop_spec 7 0 10 { memory, descs, descCnt := 0, held := [] }
    rfl (by decide) rfl hpos htop fun i hi => absurd hi (Nat.not_lt_zero _)
  have hlayout : Layout descs [] := ⟨hpos, htop, by simp, .nil⟩
  refine ⟨_, hcode, rfl, by simp, .nil, hlayout, ⟨fun i => (hempty i).blockSize,
    fun i => (hempty i).blocksPerArena, by simp, ⟨fun i => ?_, fun i j hij => ?_⟩, ?_⟩,
    ⟨by simp, by simp, .nil⟩, by simp⟩
  · refine ⟨?_, ?_, isChain_pair.mpr ⟨?_, ?_⟩, ?_⟩
    · exact congrArg Links.prev (hempty i).head
    · exact congrArg Links.next (hempty i).tail
    · exact congrArg Links.next (hempty i).head
    · exact congrArg Links.prev (hempty i).tail
    · simp [KernelList.nodes, freeLists, Desc.freeList]
  · have hne : i.val ≠ j.val := fun heq => hij (Fin.ext heq)
    simp only [KernelList.nodes, freeLists, Desc.freeList, descAt, sizeofDesc, nil_append,
      disjoint_left, mem_cons, not_mem_nil, or_false]
    omega
  · intro i a ha
    simp only [KernelList.nodes, nil_append, mem_cons, not_mem_nil, or_false] at ha
    exact .inl ⟨i, ha⟩

end Heap

/-! ## What follows for the callers -/

namespace HeapUse
variable {s : HeapUse} {regions : List Region} {free : SizeClass → List Nat} {r : Region}
  {i : SizeClass} {a b : Nat}

section
variable (h : s.heap.Inv regions free s.live)
include h

/-- The arenas of a descriptor are the regions of its class. -/
theorem isArena_iff :
    s.IsArena (descAt s.heap.descs i) a ↔ ∃ r ∈ regions, r.cls = some i ∧ r.base = a := by
  constructor
  · rintro ⟨⟨e, he, rfl⟩, hdesc⟩
    obtain ⟨r, hr, rfl⟩ := (h.held e).mp he
    refine ⟨r, hr, ?_, rfl⟩
    have hpos := h.layout.descs_pos
    rw [show r.extent.start = r.base from rfl, (h.image.headers r hr).desc, Region.descPtr] at hdesc
    cases hcls : r.cls with
    | none =>
      simp only [hcls, descAt] at hdesc
      omega
    | some j =>
      simp only [hcls, descAt, sizeofDesc] at hdesc
      exact congrArg some (Fin.ext (by omega))
  · rintro ⟨r, hr, hcls, rfl⟩
    refine ⟨⟨r.extent, (h.held _).mpr ⟨r, hr, rfl⟩, rfl⟩, ?_⟩
    rw [(h.image.headers r hr).desc, Region.descPtr, hcls]

theorem arenaBlocks_eq (hcls : r.cls = some i) :
    s.arenaBlocks (descAt s.heap.descs i) r.base = r.blocks := by
  rw [arenaBlocks, h.image.blocksPerArena i, h.image.blockSize i, Region.blocks_eq hcls]

/-- The free blocks of an arena are those of its blocks that are on the list. -/
theorem count_eq_countP (hr : r ∈ regions) (hcls : r.cls = some i) :
    r.count s.live = (free i).countP (· ∈ r.blocks) := by
  rw [Region.count_of_cls hcls, countP_eq_length_filter, countP_eq_length_filter]
  refine List.Perm.length_eq ((perm_ext_iff_of_nodup ?_ ?_).mpr fun c => ?_)
  · exact (h.layout.ok r hr).nodup_blocks.filter _
  · exact (h.image.nodup_free i).filter _
  · rw [mem_filter, mem_filter, decide_eq_true_eq, decide_eq_true_eq, h.account.free_iff]
    constructor
    · rintro ⟨hc, hnot⟩
      exact ⟨⟨⟨r, hr, hcls, hc⟩, hnot⟩, hc⟩
    · rintro ⟨⟨-, hnot⟩, hc⟩
      exact ⟨hc, hnot⟩

theorem freeList_of_inv (i : SizeClass) :
    s.FreeList (descAt s.heap.descs i) (free i) where
  holds := h.image.lists.represents.wellFormed i
  nodup := h.image.nodup_free i
  mem_iff b := by
    rw [h.account.free_iff]
    refine and_congr_left fun _ => ⟨?_, ?_⟩
    · rintro ⟨r, hr, hcls, hb⟩
      exact ⟨r.base, (isArena_iff h).mpr ⟨r, hr, hcls, rfl⟩, by rwa [arenaBlocks_eq h hcls]⟩
    · rintro ⟨a, ha, hb⟩
      obtain ⟨r, hr, hcls, rfl⟩ := (isArena_iff h).mp ha
      rw [arenaBlocks_eq h hcls] at hb
      exact ⟨r, hr, hcls, hb⟩
  freeCnt a ha := by
    obtain ⟨r, hr, hcls, rfl⟩ := (isArena_iff h).mp ha
    rw [(h.image.headers r hr).freeCnt, arenaBlocks_eq h hcls, count_eq_countP h hr hcls]
  used a ha := by
    obtain ⟨r, hr, hcls, rfl⟩ := (isArena_iff h).mp ha
    obtain ⟨p, hp, hlive⟩ := h.used r hr
    have hle : r.blocks.countP (· ∉ s.live) ≤ r.blocks.length := countP_le_length
    have hne : r.blocks.countP (· ∉ s.live) ≠ r.blocks.length := fun heq =>
      of_decide_eq_true (countP_eq_length.mp heq p hp) hlive
    rw [Region.length_blocks, Region.blockCnt, hcls] at hle hne
    rw [(h.image.headers r hr).freeCnt, h.image.blocksPerArena i, Region.count_of_cls hcls]
    exact Nat.lt_of_le_of_ne hle hne

/-- **The invariant says what the heap promises.** -/
theorem consistent_of_inv : s.Consistent where
  sized p hp := by
    obtain ⟨r, hr, hb⟩ := h.account.region p hp
    rw [(h.usable_eq hr hb).1]
    rfl
  apart := by
    refine h.account.nodup.imp_of_mem fun {p q} hp hq hne => ?_
    obtain ⟨r, hr, hb⟩ := h.account.region p hp
    obtain ⟨t, ht, hc⟩ := h.account.region q hq
    rw [(h.usable_eq hr hb).2, (h.usable_eq ht hc).2]
    exact h.layout.block_apart hr ht hb hc hne
  inside p hp := by
    obtain ⟨r, hr, hb⟩ := h.account.region p hp
    exact ⟨r.extent, (h.held _).mpr ⟨r, hr, rfl⟩, h.usable_within hr hb⟩
  headers p hp e he := by
    obtain ⟨r, hr, hb⟩ := h.account.region p hp
    obtain ⟨q, hq, rfl⟩ := (h.held e).mp he
    rw [(h.usable_eq hr hb).2]
    exact h.layout.block_apart_header hr hq hb
  freeLists k hk := by
    rw [h.descCnt] at hk
    exact ⟨_, freeList_of_inv h ⟨k, hk⟩⟩

end

/-- The invariant, for some regions and free lists. -/
def Inv (s : HeapUse) : Prop :=
  ∃ regions free, s.heap.Inv regions free s.live

theorem inv_start (h : s.Start) : s.Inv := by
  obtain ⟨⟨hpos, htop⟩, ⟨memory, hinit⟩, hlive⟩ := h
  obtain ⟨heap, hcode, hinv⟩ := Heap.mallocInit_spec memory hpos htop
  rw [hinit] at hcode
  cases hcode
  exact ⟨_, _, hlive ▸ hinv⟩

theorem erase_null (h : s.heap.Inv regions free s.live) : s.live.erase 0 = s.live := by
  refine erase_of_not_mem fun hmem => ?_
  obtain ⟨r, hr, hb⟩ := h.account.region 0 hmem
  exact absurd (h.layout.block_pos hr hb) (Nat.lt_irrefl 0)

/-- **`free`** of a live block or the null pointer. -/
theorem free_spec {p : Nat} (h : s.heap.Inv regions free s.live) (hp : p = 0 ∨ p ∈ s.live) :
    ∃ heap, s.heap.free p = some heap ∧
      ∃ regions' free', heap.Inv regions' free' (s.live.erase p) := by
  rcases hp with rfl | hp
  · exact ⟨s.heap, if_pos rfl, regions, free, by rwa [erase_null h]⟩
  · obtain ⟨heap, hcode, regions', free', hinv, -⟩ := h.freeBlock hp
    exact ⟨heap, hcode, regions', free', hinv⟩

/-- **Every call keeps the invariant**, and none of its assertions fails. -/
theorem Inv.apply {event : HeapEvent} (h : s.Inv) (henabled : s.Enabled event)
    (hfits : Fits event) : ∃ s', s.apply event = some s' ∧ s'.Inv := by
  obtain ⟨regions, free, h⟩ := h
  cases event with
  | malloc size found =>
    obtain ⟨heap, p, hcode, ⟨rfl, rfl⟩ | ⟨hpos, regions', free', hinv, -⟩⟩ := h.malloc size found
    · exact ⟨⟨s.heap, s.live⟩, by rw [HeapUse.apply, hcode]; rfl, _, _, h⟩
    · refine ⟨⟨heap, p :: s.live⟩, ?_, _, _, hinv⟩
      simp [HeapUse.apply, hcode, granted, Nat.ne_of_gt hpos]
  | calloc x y found =>
    obtain ⟨heap, p, hcode, ⟨rfl, rfl⟩ | ⟨hpos, regions', free', hinv⟩⟩ := h.calloc x y found hfits
    · exact ⟨⟨s.heap, s.live⟩, by rw [HeapUse.apply, hcode]; rfl, _, _, h⟩
    · refine ⟨⟨heap, p :: s.live⟩, ?_, _, _, hinv⟩
      simp [HeapUse.apply, hcode, granted, Nat.ne_of_gt hpos]
  | realloc old newSize found =>
    obtain ⟨hold, -⟩ := henabled
    by_cases hzero : newSize = 0
    · obtain ⟨heap, hcode, regions', free', hinv⟩ := free_spec h hold
      refine ⟨⟨heap, s.live.erase old⟩, ?_, _, _, hinv⟩
      simp [HeapUse.apply, Heap.realloc, hzero, hcode, granted]
    rcases hold with rfl | hold
    · -- there is no old block, and the call is one of `malloc`
      obtain ⟨heap, p, hcode, ⟨rfl, rfl⟩ | ⟨hpos, regions', free', hinv, -⟩⟩ :=
        h.malloc newSize found
      · refine ⟨⟨s.heap, s.live⟩, ?_, _, _, h⟩
        simp [HeapUse.apply, Heap.realloc, hzero, hcode]
      · refine ⟨⟨heap, p :: s.live⟩, ?_, _, _, hinv⟩
        simp [HeapUse.apply, Heap.realloc, hzero, hcode, Nat.ne_of_gt hpos, granted, erase_null h]
    · obtain ⟨r, hr, hb⟩ := h.account.region old hold
      have hne : old ≠ 0 := Nat.ne_of_gt (h.layout.block_pos hr hb)
      obtain ⟨heap, p, hcode, ⟨rfl, rfl⟩ | ⟨hpos, -, regions', free', hinv, -⟩⟩ :=
        h.realloc hr hb hold found hzero (hfits.resolve_left hne)
      · refine ⟨⟨s.heap, s.live⟩, ?_, _, _, h⟩
        simp [HeapUse.apply, hzero, hcode]
      · refine ⟨⟨heap, p :: s.live.erase old⟩, ?_, _, _, hinv⟩
        simp [HeapUse.apply, hcode, Nat.ne_of_gt hpos, granted]
  | free p =>
    obtain ⟨heap, hcode, regions', free', hinv⟩ := free_spec h henabled
    exact ⟨⟨heap, s.live.erase p⟩, by simp [HeapUse.apply, hcode], _, _, hinv⟩
  | store address byte =>
    refine ⟨_, rfl, regions, free, ?_⟩
    rcases henabled with ⟨p, hp, haddress⟩ | ⟨hdescs, hheld⟩
    · obtain ⟨r, hr, hb⟩ := h.account.region p hp
      rw [(h.usable_eq hr hb).2] at haddress
      refine h.write hr hb hp fun x hx => update_of_ne ?_ _ _
      rintro rfl
      exact hx haddress
    · refine h.write_outside fun x hx => update_of_ne ?_ _ _
      rintro rfl
      rcases hx with hx | ⟨e, he, hx⟩
      · exact hdescs hx
      · exact hheld e he hx

theorem inv_run {N : Nat} {state : Nat → HeapUse} {label : Nat → HeapEvent}
    (hrun : system.Run N state label) (hfits : ∀ t, t < N → Fits (label t)) {t : Nat}
    (ht : t ≤ N) : (state t).Inv := by
  refine TransitionSystem.keep (Nat.zero_le t) (fun u _ hut h => ?_) (inv_start hrun.init)
  obtain ⟨henabled, heq⟩ := hrun.step u (Nat.lt_of_lt_of_le hut ht)
  obtain ⟨s', hs', hinv⟩ := h.apply henabled (hfits u (Nat.lt_of_lt_of_le hut ht))
  rw [heq] at hs'
  exact Option.some.inj hs' ▸ hinv

/-- **The heap keeps its promises**, as long as no request that the heap itself writes to
is so large that adding the header to it wraps round: between calls it is consistent, no
assertion fails in the next one, and a `malloc` that fails changes nothing. -/
theorem heap_consistent {N : Nat} {state : Nat → HeapUse} {label : Nat → HeapEvent}
    (hrun : system.Run N state label) (hfits : ∀ t, t < N → Fits (label t)) {t : Nat}
    (ht : t ≤ N) :
    (state t).Consistent ∧
      (∀ event, (state t).Enabled event → Fits event → ((state t).apply event).isSome = true) ∧
      ∀ size found heap, (state t).heap.malloc size found = some (heap, 0) →
        heap = (state t).heap := by
  have hinv := inv_run hrun hfits ht
  obtain ⟨regions, free, h⟩ := hinv
  refine ⟨consistent_of_inv h, fun event henabled hevent => ?_, fun size found heap hnull => ?_⟩
  · obtain ⟨s', hs', -⟩ := Inv.apply ⟨regions, free, h⟩ henabled hevent
    rw [hs']
    rfl
  · obtain ⟨heap', p, hcode, ⟨rfl, rfl⟩ | ⟨hpos, -⟩⟩ := h.malloc size found
    · rw [hnull] at hcode
      exact (Prod.mk.inj (Option.some.inj hcode)).1
    · rw [hnull] at hcode
      exact absurd (Prod.mk.inj (Option.some.inj hcode)).2 (Nat.ne_of_lt hpos)

/-- The heap starts in zeroed memory. -/
theorem starts_in_zeroes : (Heap.mallocInit (fun _ => 0) 0xc0030000).isSome = true := by
  decide +kernel

/-- The heap in zeroed memory, before the first call. -/
def zeroed : HeapUse :=
  ⟨Option.get _ starts_in_zeroes, []⟩

theorem start_zeroed : zeroed.Start := by
  have hdescs : zeroed.heap.descs = 0xc0030000 := by decide +kernel
  have hinit : Heap.mallocInit (fun _ => 0) 0xc0030000 = some zeroed.heap :=
    (Option.some_get starts_in_zeroes).symm
  refine ⟨?_, ⟨fun _ => 0, ?_⟩, rfl⟩
  · rw [hdescs]
    decide
  · rw [hdescs, hinit]

/-- A small block is moved within its arena while a big block is live. -/
theorem heap_consistent_moved :
    ∃ s : HeapUse, s.live = [0xc010340c, 0xc010400c] ∧ s.Consistent := by
  let events : List HeapEvent :=
    [.malloc 1024 0xc0103000, .malloc 5000 0xc0104000, .realloc 0xc010300c 600 0]
  let state := after (orSelf apply) zeroed events
  have hrun : system.Run 3 state fun n => events.getD n (.free 0) :=
    TransitionSystem.Run.of_checked_labels start_zeroed events _ (by decide +kernel)
  have hlive : (state 3).live = [0xc010340c, 0xc010400c] := by decide +kernel
  have hfits : ∀ n, n < 3 → Fits (events.getD n (.free 0)) := by decide +kernel
  clear_value state
  exact ⟨state 3, hlive, (heap_consistent hrun hfits (Nat.le_refl 3)).1⟩

/-- Without live blocks nothing is left: no page is held, and the free lists are empty. -/
theorem empty_of_inv {heap : Heap} (h : heap.Inv regions free []) : heap.held = [] ∧
    ∀ k, k < heap.descCnt →
      KernelList.WellFormed (links heap.memory) (Desc.freeList (heap.desc k)) [] := by
  have hnone : ∀ r, r ∉ regions := fun r hr => by
    obtain ⟨p, -, hlive⟩ := h.used r hr
    exact not_mem_nil hlive
  refine ⟨eq_nil_iff_forall_not_mem.mpr fun e he => ?_, fun k hk => ?_⟩
  · obtain ⟨r, hr, -⟩ := (h.held e).mp he
    exact hnone r hr
  · rw [h.descCnt] at hk
    have hempty : free ⟨k, hk⟩ = [] := eq_nil_iff_forall_not_mem.mpr fun b hb => by
      obtain ⟨⟨r, hr, -⟩, -⟩ := (h.account.free_iff _ b).mp hb
      exact hnone r hr
    exact hempty ▸ h.image.lists.represents.wellFormed ⟨k, hk⟩

/-- Freeing blocks one after the other. -/
theorem free_all {order : List Nat} (h : s.heap.Inv regions free s.live)
    (hperm : order.Perm s.live) :
    ∃ heap : Heap, order.foldlM Heap.free s.heap = some heap ∧
      ∃ regions free, heap.Inv regions free [] := by
  induction order generalizing s regions free with
  | nil => exact ⟨s.heap, rfl, regions, free, hperm.nil_eq ▸ h⟩
  | cons p order ih =>
    obtain ⟨hp, hrest⟩ := cons_perm_iff_perm_erase.mp hperm
    obtain ⟨heap, hcode, regions', free', hinv⟩ := free_spec h (.inr hp)
    rw [foldlM_cons, hcode]
    exact ih (s := ⟨heap, s.live.erase p⟩) hinv hrest

/-- **No page is lost.**  In every state of a run there is a live block in whatever is held; and
its live blocks can be freed, in any order, and then all pages have been given back and the free
lists are empty. -/
theorem pages_given_back {N : Nat} {state : Nat → HeapUse} {label : Nat → HeapEvent}
    (hrun : system.Run N state label) (hfits : ∀ t, t < N → Fits (label t)) {t : Nat} (ht : t ≤ N) :
    (∀ e ∈ (state t).heap.held, ∃ p ∈ (state t).live, ((state t).heap.usable p).Within e) ∧
    ∀ order : List Nat, order.Perm (state t).live →
      ∃ heap : Heap, order.foldlM Heap.free (state t).heap = some heap ∧ heap.held = [] ∧
        ∀ k, k < heap.descCnt →
          KernelList.WellFormed (links heap.memory) (Desc.freeList (heap.desc k)) [] := by
  obtain ⟨regions, free, h⟩ := inv_run hrun hfits ht
  refine ⟨fun e he => ?_, fun order hperm => ?_⟩
  · obtain ⟨r, hr, rfl⟩ := (h.held e).mp he
    obtain ⟨p, hb, hp⟩ := h.used r hr
    exact ⟨p, hp, h.usable_within hr hb⟩
  · obtain ⟨heap, hcode, regions', free', hinv⟩ := free_all h hperm
    exact ⟨heap, hcode, empty_of_inv hinv⟩

/-- Two blocks of one arena are freed, and the page with them. -/
theorem pages_given_back_two :
    ∃ s : HeapUse, s.live = [0xc010380c, 0xc010340c] ∧
      ∃ heap : Heap, [0xc010340c, 0xc010380c].foldlM Heap.free s.heap = some heap ∧
        heap.held = [] := by
  let events : List HeapEvent :=
    [.malloc 1024 0xc0103000, .malloc 600 0, .malloc 600 0, .free 0xc010300c]
  let state := after (orSelf apply) zeroed events
  have hrun : system.Run 4 state fun n => events.getD n (.free 0) :=
    TransitionSystem.Run.of_checked_labels start_zeroed events _ (by decide +kernel)
  have hlive : (state 4).live = [0xc010380c, 0xc010340c] := by decide +kernel
  have hfits : ∀ n, n < 4 → Fits (events.getD n (.free 0)) := by decide +kernel
  clear_value state
  obtain ⟨heap, hcode, hheld, -⟩ := (pages_given_back hrun hfits (Nat.le_refl 4)).2
    [0xc010340c, 0xc010380c] (hlive ▸ .swap _ _ _)
  exact ⟨state 4, hlive, heap, hcode, hheld⟩

/-- **A block is as large as it was asked to be** exactly if adding the header to the size
did not wrap round.  Otherwise no block is: it would not fit in memory behind its
header. -/
theorem malloc_size_iff {N : Nat} {state : Nat → HeapUse} {label : Nat → HeapEvent}
    (hrun : system.Run N state label) (hfits : ∀ t, t < N → Fits (label t)) {t : Nat}
    (ht : t ≤ N) {size found p : Nat} {heap : Heap}
    (hcall : (state t).heap.malloc size found = some (heap, p)) (hp : p ≠ 0) :
    (∃ n, Heap.blockSize heap.memory p = some n ∧ size ≤ n) ↔
      size + sizeofArena ≤ unsignedSize := by
  obtain ⟨regions, free, h⟩ := inv_run hrun hfits ht
  obtain ⟨heap', p', hcode, ⟨rfl, -⟩ | ⟨-, regions', free', hinv, ⟨r, hr, hb, hlarge⟩, -⟩⟩ :=
    h.malloc size found
  · rw [hcall] at hcode
    exact absurd (Prod.mk.inj (Option.some.inj hcode)).2 hp
  · rw [hcall] at hcode
    cases hcode
    have hsize := (hinv.usable_eq hr hb).1
    refine ⟨?_, fun hwrap => ⟨_, hsize, hlarge hwrap⟩⟩
    rintro ⟨n, hn, hle⟩
    obtain rfl : r.blockLen = n := Option.some.inj (hsize.symm.trans hn)
    have hok := hinv.layout.ok r hr
    have hwithin := hok.block_within hb
    have htop := hok.top
    omega

/-- A request of one byte more than a page has behind the header. -/
theorem malloc_size_iff_pages :
    ∃ heap, zeroed.heap.malloc 4085 0xc0104000 = some (heap, 0xc010400c) ∧
      ((∃ n, Heap.blockSize heap.memory 0xc010400c = some n ∧ 4085 ≤ n) ↔
        4085 + sizeofArena ≤ unsignedSize) := by
  have hrun : system.Run 0 (fun _ => zeroed) fun _ => .free 0 :=
    ⟨start_zeroed, fun t ht => absurd ht (Nat.not_lt_zero t)⟩
  have hcall : ((zeroed.heap.malloc 4085 0xc0104000).map Prod.snd) = some 0xc010400c := by
    decide +kernel
  obtain ⟨⟨heap, p⟩, hheap, rfl⟩ := Option.map_eq_some_iff.mp hcall
  exact ⟨heap, hheap, malloc_size_iff hrun (fun t ht => absurd ht (Nat.not_lt_zero t))
    (Nat.le_refl 0) hheap (by decide)⟩

/-- **A block of one page for a request of almost all of memory.** -/
theorem malloc_wraps : zeroed.Start ∧
    ∃ heap, zeroed.heap.malloc 0xfffffffb 0xc0104000 = some (heap, 0xc010400c) ∧
      Heap.blockSize heap.memory 0xc010400c = some 4084 := by
  have hcall : ((zeroed.heap.malloc 0xfffffffb 0xc0104000).map fun r =>
      (r.2, Heap.blockSize r.1.memory 0xc010400c)) = some (0xc010400c, some 4084) := by
    decide +kernel
  obtain ⟨⟨heap, p⟩, hheap, hpair⟩ := Option.map_eq_some_iff.mp hcall
  obtain ⟨rfl, hsize⟩ := Prod.mk.inj hpair
  exact ⟨start_zeroed, heap, hheap, hsize⟩

/-- **The header wraps round.**  A block of two pages is moved to a block of 2 to the 32
less 5 bytes.  That block has one page, and the copy goes on into the next one, which is an
arena: its header is lost, and freeing its live block fails. -/
theorem realloc_overruns : ∃ state label, system.Run 5 state label ∧
    label 4 = .realloc 0xc010400c 0xfffffffb 0xc0102000 ∧
    (state 5).Enabled (.free 0xc010300c) ∧ (state 5).apply (.free 0xc010300c) = none := by
  let events : List HeapEvent :=
    [.malloc 4084 0xc0102000, .malloc 1024 0xc0103000, .malloc 5000 0xc0104000,
      .free 0xc010200c, .realloc 0xc010400c 0xfffffffb 0xc0102000]
  let state := after (orSelf apply) zeroed events
  have hrun : system.Run 5 state fun n => events.getD n (.free 0) :=
    TransitionSystem.Run.of_checked_labels start_zeroed events _ (by decide +kernel)
  have henabled : (state 5).Enabled (.free 0xc010300c) := by decide +kernel
  have hnone : ((state 5).apply (.free 0xc010300c)).isNone = true := by decide +kernel
  clear_value state
  exact ⟨state, _, hrun, rfl, henabled, Option.isNone_iff_eq_none.mp hnone⟩

end HeapUse
end Pintos
