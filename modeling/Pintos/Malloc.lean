import Pintos.MemoryList
import Pintos.PagePools
import Pintos.TransitionSystem

/-!
# The heap

`threads/malloc.c`.  Requests are rounded up to one of seven block sizes.  The descriptor
of a size keeps the free blocks of that size in a list, whose links are in the blocks
themselves; when the list is empty, a page is taken from the page allocator, gets a
header, and is cut into blocks, and when all blocks of such an arena are free again, they
are taken out of the list and the page is given back.  A request too big for any block
gets pages of its own, behind a header of the same shape.

Everything the code reads and writes is in one byte-addressed `Memory`: the descriptors,
the headers, the links and the blocks.  So a write that goes astray is a write to whatever
is there.  Calls come one after the other, and the locks of the descriptors are left out.
-/

namespace Pintos
open MemoryList (links)

/-! ## Addresses and structures -/

/-- `pg_round_down`. -/
def pgRoundDown (va : Nat) : Nat :=
  va - pgOfs va

/-- `ARENA_MAGIC`. -/
def arenaMagic : Nat := 0x9a548eed

/-- `sizeof (struct arena)`. -/
def sizeofArena : Nat := 12

/-- `sizeof (struct desc)`: the two sizes, the list and the lock. -/
def sizeofDesc : Nat := 48

namespace Desc

/-- `d->block_size`. -/
def blockSize (m : Memory) (d : Nat) : Nat :=
  m.word d

/-- `d->blocks_per_arena`. -/
def blocksPerArena (m : Memory) (d : Nat) : Nat :=
  m.word (d + 4)

/-- `&d->free_list`. -/
def freeList (d : Nat) : KernelList Nat :=
  ⟨d + 8, d + 16⟩

end Desc

namespace Arena

/-- `a->magic`. -/
def magic (m : Memory) (a : Nat) : Nat :=
  m.word a

/-- `a->desc`. -/
def desc (m : Memory) (a : Nat) : Nat :=
  m.word (a + 4)

/-- `a->free_cnt`. -/
def freeCnt (m : Memory) (a : Nat) : Nat :=
  m.word (a + 8)

/-- `a->free_cnt = n`. -/
def setFreeCnt (m : Memory) (a n : Nat) : Memory :=
  m.setWord (a + 8) n

/-- The three assignments that make a header. -/
def init (m : Memory) (a d n : Nat) : Memory :=
  setFreeCnt ((m.setWord a arenaMagic).setWord (a + 4) d) a n

end Arena

/-- The heap.  `descs` is where the linker put the descriptors.  `held` is not a variable
of the program: the pages the heap has obtained from the page allocator and not given
back. -/
structure Heap where
  memory : Memory
  descs : Nat
  descCnt : Nat
  held : List Extent

namespace Heap

/-- `&descs[i]`. -/
def desc (s : Heap) (i : Nat) : Nat :=
  s.descs + sizeofDesc * i

/-- The memory of the array `descs`. -/
def descsAt (descs : Nat) : Extent :=
  ⟨descs, sizeofDesc * 10⟩

/-! ## The code -/

/-- One round of the loop in `malloc_init`. -/
def initDesc (m : Memory) (d blockSize : Nat) : Memory :=
  let m := m.setWord d blockSize
  let m := m.setWord (d + 4) ((pgsize - sizeofArena) / blockSize)
  MemoryList.listInit m (Desc.freeList d)

/-- The loop of `malloc_init`, with the number of unused elements of `descs`; the
assertion fails when there is none left. -/
def initLoop (unused : Nat) (s : Heap) (blockSize : Nat) : Option Heap :=
  if blockSize < pgsize / 2 then
    match unused with
    | 0 => none
    | unused + 1 =>
      let memory := initDesc s.memory (s.desc s.descCnt) blockSize
      initLoop unused { s with memory, descCnt := s.descCnt + 1 } (blockSize * 2)
  else
    some s

/-- `malloc_init`. -/
def mallocInit (memory : Memory) (descs : Nat) : Option Heap :=
  initLoop 10 { memory, descs, descCnt := 0, held := [] } 16

/-- Pages that the page allocator may hand out: they are pages, and neither the heap nor
the descriptors are in them. -/
def Unused (s : Heap) (pages : Extent) : Prop :=
  pgOfs pages.start = 0 ∧ 0 < pages.start ∧ pages.start + pages.len ≤ unsignedSize ∧
    pages.Apart (descsAt s.descs) ∧ ∀ e ∈ s.held, pages.Apart e

instance (s : Heap) (pages : Extent) : Decidable (s.Unused pages) :=
  inferInstanceAs (Decidable (_ ∧ _))

/-- `palloc_get_multiple (0, page_cnt)`.  Which pages the page allocator finds is up to
it: it hands out the pages at `found` if it may, and otherwise fails. -/
def pallocGetMultiple (s : Heap) (pageCnt found : Nat) : Heap × Nat :=
  if pageCnt ≠ 0 ∧ s.Unused ⟨found, pgsize * pageCnt⟩ then
    ({ s with held := ⟨found, pgsize * pageCnt⟩ :: s.held }, found)
  else
    (s, 0)

/-- `palloc_free_multiple`.  The pages have to be pages obtained together. -/
def pallocFreeMultiple (s : Heap) (pages pageCnt : Nat) : Option Heap := do
  assert (pgOfs pages = 0)
  if pages = 0 ∨ pageCnt = 0 then
    some s
  else
    assert (⟨pages, pgsize * pageCnt⟩ ∈ s.held)
    some
      { s with
        memory := s.memory.fill ⟨pages, pgsize * pageCnt⟩ 0xcc
        held := s.held.erase ⟨pages, pgsize * pageCnt⟩ }

/-- `block_to_arena`.  A remainder by 0 traps. -/
def blockToArena (m : Memory) (b : Nat) : Option Nat := do
  let a := pgRoundDown b
  assert (a ≠ 0)
  assert (Arena.magic m a = arenaMagic)
  assert (Arena.desc m a = 0 ∨ Desc.blockSize m (Arena.desc m a) ≠ 0 ∧
    (pgOfs b + unsignedSize - sizeofArena) % unsignedSize % Desc.blockSize m (Arena.desc m a) = 0)
  assert (Arena.desc m a ≠ 0 ∨ pgOfs b = sizeofArena)
  some a

/-- `arena_to_block`. -/
def arenaToBlock (m : Memory) (a idx : Nat) : Option Nat := do
  assert (a ≠ 0)
  assert (Arena.magic m a = arenaMagic)
  assert (idx < Desc.blocksPerArena m (Arena.desc m a))
  some ((a + sizeofArena + idx * Desc.blockSize m (Arena.desc m a)) % unsignedSize)

/-- The loop of `malloc` that adds the blocks of a new arena to the free list. -/
def pushBlocks (m : Memory) (d a : Nat) : Option Memory :=
  (List.range (Desc.blocksPerArena m d)).foldlM (fun m i => do
    MemoryList.listPushBack m (Desc.freeList d) (← arenaToBlock m a i)) m

/-- The end of `malloc`: a block is taken from the free list. -/
def popBlock (s : Heap) (d : Nat) : Option (Heap × Nat) := do
  let (m, b) ← MemoryList.listPopFront s.memory (Desc.freeList d)
  let a ← blockToArena m b
  some ({ s with memory := Arena.setFreeCnt m a (decrement (Arena.freeCnt m a)) }, b)

/-- `malloc`. -/
def malloc (s : Heap) (size found : Nat) : Option (Heap × Nat) :=
  if size = 0 then
    some (s, 0)
  else
    match (List.range s.descCnt).find? fun i => size ≤ Desc.blockSize s.memory (s.desc i) with
    | none =>
      let pageCnt := divRoundUp ((size + sizeofArena) % unsignedSize) pgsize
      let (s, a) := s.pallocGetMultiple pageCnt found
      if a = 0 then
        some (s, 0)
      else
        some ({ s with memory := Arena.init s.memory a 0 pageCnt }, a + sizeofArena)
    | some i =>
      let d := s.desc i
      if KernelList.listEmpty (links s.memory) (Desc.freeList d) then
        let (s, a) := s.pallocGetMultiple 1 found
        if a = 0 then
          some (s, 0)
        else do
          let m := Arena.init s.memory a d (Desc.blocksPerArena s.memory d)
          popBlock { s with memory := ← pushBlocks m d a } d
      else
        popBlock s d

/-- `calloc`. -/
def calloc (s : Heap) (a b found : Nat) : Option (Heap × Nat) :=
  let size := a * b % unsignedSize
  if size < a ∨ size < b then
    some (s, 0)
  else do
    let (s, p) ← s.malloc size found
    if p ≠ 0 then
      some ({ s with memory := s.memory.fill ⟨p, size⟩ 0 }, p)
    else
      some (s, p)

/-- `block_size`. -/
def blockSize (m : Memory) (block : Nat) : Option Nat := do
  let a ← blockToArena m block
  let d := Arena.desc m a
  if d ≠ 0 then
    some (Desc.blockSize m d)
  else
    some ((pgsize * Arena.freeCnt m a + unsignedSize - pgOfs block) % unsignedSize)

/-- The loop of `free` that takes the blocks of an arena off the free list. -/
def removeBlocks (m : Memory) (d a : Nat) : Option Memory :=
  (List.range (Desc.blocksPerArena m d)).foldlM (fun m i => do
    MemoryList.listRemove m (← arenaToBlock m a i)) m

/-- `free`. -/
def free (s : Heap) (p : Nat) : Option Heap :=
  if p = 0 then
    some s
  else do
    let a ← blockToArena s.memory p
    let d := Arena.desc s.memory a
    if d ≠ 0 then
      let m := s.memory.fill ⟨p, Desc.blockSize s.memory d⟩ 0xcc
      let m ← MemoryList.listPushFront m (Desc.freeList d) p
      let m := Arena.setFreeCnt m a (increment (Arena.freeCnt m a))
      if Arena.freeCnt m a ≥ Desc.blocksPerArena m d then
        assert (Arena.freeCnt m a = Desc.blocksPerArena m d)
        let m ← removeBlocks m d a
        pallocFreeMultiple { s with memory := m } a 1
      else
        some { s with memory := m }
    else
      s.pallocFreeMultiple a (Arena.freeCnt s.memory a)

/-- `realloc`. -/
def realloc (s : Heap) (oldBlock newSize found : Nat) : Option (Heap × Nat) :=
  if newSize = 0 then do
    some (← s.free oldBlock, 0)
  else do
    let (s, newBlock) ← s.malloc newSize found
    if oldBlock ≠ 0 ∧ newBlock ≠ 0 then
      let oldSize ← blockSize s.memory oldBlock
      let minSize := if newSize < oldSize then newSize else oldSize
      let s ← free { s with memory := s.memory.copy newBlock oldBlock minSize } oldBlock
      some (s, newBlock)
    else
      some (s, newBlock)

/-! ## Calls -/

/-- The bytes of a live block, as many as `block_size` says. -/
def usable (s : Heap) (p : Nat) : Extent :=
  ⟨p, (blockSize s.memory p).getD 0⟩

end Heap

/-- A call of the heap's functions, with the pages the page allocator finds, or a write to
memory by somebody else. -/
inductive HeapEvent where
  | malloc (size found : Nat)
  | calloc (a b found : Nat)
  | realloc (oldBlock newSize found : Nat)
  | free (p : Nat)
  | store (address : Nat) (byte : BitVec 8)
  deriving DecidableEq

/-- The heap and the **live** blocks: those its callers have obtained and not given back. -/
structure HeapUse where
  heap : Heap
  live : List Nat

namespace HeapUse

/-- The block that a call returned is live, unless it is the null pointer. -/
def granted (live : List Nat) (block : Nat) : List Nat :=
  if block = 0 then live else block :: live

/-- What happens in a call. -/
def apply (s : HeapUse) : HeapEvent → Option HeapUse
  | .malloc size found => do
    let (heap, p) ← s.heap.malloc size found
    some ⟨heap, granted s.live p⟩
  | .calloc a b found => do
    let (heap, p) ← s.heap.calloc a b found
    some ⟨heap, granted s.live p⟩
  | .realloc oldBlock newSize found => do
    let (heap, newBlock) ← s.heap.realloc oldBlock newSize found
    -- the old block is gone if it has been freed or moved
    if newSize = 0 ∨ newBlock ≠ 0 then
      some ⟨heap, granted (s.live.erase oldBlock) newBlock⟩
    else
      some ⟨heap, s.live⟩
  | .free p => do
    some ⟨← s.heap.free p, s.live.erase p⟩
  | .store address byte =>
    some { s with heap.memory := Function.update s.heap.memory address byte }

/-- Sizes are 32 bits wide, only live blocks are freed, and the memory of the heap is
written by others only inside live blocks. -/
def Enabled (s : HeapUse) : HeapEvent → Prop
  | .malloc size _ => size < unsignedSize
  | .calloc a b _ => a < unsignedSize ∧ b < unsignedSize
  | .realloc oldBlock newSize _ => (oldBlock = 0 ∨ oldBlock ∈ s.live) ∧ newSize < unsignedSize
  | .free p => p = 0 ∨ p ∈ s.live
  | .store address _ => (∃ p ∈ s.live, address ∈ s.heap.usable p) ∨
      address ∉ Heap.descsAt s.heap.descs ∧ ∀ e ∈ s.heap.held, address ∉ e

instance (s : HeapUse) (event : HeapEvent) : Decidable (s.Enabled event) := by
  cases event <;> unfold Enabled <;> infer_instance

/-- The heap after `malloc_init`, with no block handed out. -/
def Start (s : HeapUse) : Prop :=
  (0 < s.heap.descs ∧ s.heap.descs + sizeofDesc * 10 ≤ unsignedSize) ∧
    (∃ memory, Heap.mallocInit memory s.heap.descs = some s.heap) ∧ s.live = []

/-- The heap and its callers. -/
def system : TransitionSystem HeapUse HeapEvent :=
  .checked Start Enabled apply

/-- Adding the header to the size of a request that the heap itself writes to does not
wrap round: what `calloc` zeroes, and what `realloc` copies a block to. -/
def Fits : HeapEvent → Prop
  | .calloc a b _ => a * b % unsignedSize + sizeofArena ≤ unsignedSize
  | .realloc oldBlock newSize _ => oldBlock = 0 ∨ newSize + sizeofArena ≤ unsignedSize
  | _ => True

instance : DecidablePred Fits := fun event => by
  cases event <;> unfold Fits <;> infer_instance

/-! ## What the heap promises -/

/-- `a` is an arena of the descriptor `d`: pages held, with a header that says so. -/
def IsArena (s : HeapUse) (d a : Nat) : Prop :=
  (∃ e ∈ s.heap.held, e.start = a) ∧ Arena.desc s.heap.memory a = d

/-- The blocks of an arena of the descriptor `d`. -/
def arenaBlocks (s : HeapUse) (d a : Nat) : List Nat :=
  (List.range (Desc.blocksPerArena s.heap.memory d)).map fun k =>
    a + sizeofArena + k * Desc.blockSize s.heap.memory d

/-- **The free list of a descriptor** holds the blocks of its arenas that are not live,
each once; a header counts those in its arena, which are not all. -/
structure FreeList (s : HeapUse) (d : Nat) (blocks : List Nat) : Prop where
  holds : KernelList.WellFormed (links s.heap.memory) (Desc.freeList d) blocks
  nodup : blocks.Nodup
  mem_iff : ∀ b, b ∈ blocks ↔ (∃ a, s.IsArena d a ∧ b ∈ s.arenaBlocks d a) ∧ b ∉ s.live
  freeCnt : ∀ a, s.IsArena d a →
    Arena.freeCnt s.heap.memory a = blocks.countP (· ∈ s.arenaBlocks d a)
  used : ∀ a, s.IsArena d a →
    Arena.freeCnt s.heap.memory a < Desc.blocksPerArena s.heap.memory d

/-- **The heap between calls.**  Live blocks have a size, are apart from each other and
from every header, and are inside pages held; the free lists are as they should be. -/
structure Consistent (s : HeapUse) : Prop where
  sized : ∀ p ∈ s.live, (Heap.blockSize s.heap.memory p).isSome = true
  apart : s.live.Pairwise fun p q => (s.heap.usable p).Apart (s.heap.usable q)
  inside : ∀ p ∈ s.live, ∃ e ∈ s.heap.held, (s.heap.usable p).Within e
  headers : ∀ p ∈ s.live, ∀ e ∈ s.heap.held, (s.heap.usable p).Apart ⟨e.start, sizeofArena⟩
  freeLists : ∀ k, k < s.heap.descCnt → ∃ blocks, s.FreeList (s.heap.desc k) blocks

end HeapUse
end Pintos
