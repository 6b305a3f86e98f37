import Pintos.AddressSpace
import Pintos.FileSystem
import Pintos.InodeBytes

/-!
# Loading a program

`load` of `userprog/process.c` and its helpers.  The file is one of the file system, and can have
any contents; memory can run out at any time, in the file system and in both pools of pages.

Sums and differences of `uint32_t`s can wrap.  The functions here take as a parameter whether
one in the computation of `read_bytes` and `zero_bytes` that does is a failure (`strict`).

**The tests of `validate_segment` let no sum pass that wraps** (`validateSegment_iff`), so that
`read_bytes` and `zero_bytes` are what they are meant to be (`ValidSegment.segmentBytes_eq`).
-/

namespace Pintos

open Filesys (Fs leWord toOff ofOff wrap)
open CString

/-! ## Headers -/

/-- A little-endian half word. -/
def leHalf (bytes : List Byte) : Nat :=
  (bytes.getD 0 0).toNat + 256 * (bytes.getD 1 0).toNat

/-- `struct Elf32_Ehdr`, as far as `load` reads it. -/
structure Ehdr where
  ident : List Byte
  type : Nat
  machine : Nat
  version : Nat
  entry : Nat
  phoff : Nat
  phentsize : Nat
  phnum : Nat

/-- `sizeof (struct Elf32_Ehdr)`. -/
def ehdrSize : Nat := 52

/-- The header in the bytes of a file. -/
def Ehdr.ofBytes (bytes : List Byte) : Ehdr where
  ident := bytes.take 16
  type := leHalf (bytes.drop 16)
  machine := leHalf (bytes.drop 18)
  version := leWord (bytes.drop 20)
  entry := leWord (bytes.drop 24)
  phoff := leWord (bytes.drop 28)
  phentsize := leHalf (bytes.drop 42)
  phnum := leHalf (bytes.drop 44)

/-- `struct Elf32_Phdr`, as far as `load` reads it. -/
structure Phdr where
  type : Nat
  offset : Nat
  vaddr : Nat
  filesz : Nat
  memsz : Nat
  flags : Nat

/-- `sizeof (struct Elf32_Phdr)`. -/
def phdrSize : Nat := 32

/-- The program header in the bytes of a file. -/
def Phdr.ofBytes (bytes : List Byte) : Phdr where
  type := leWord bytes
  offset := leWord (bytes.drop 4)
  vaddr := leWord (bytes.drop 8)
  filesz := leWord (bytes.drop 16)
  memsz := leWord (bytes.drop 20)
  flags := leWord (bytes.drop 24)

/-- What `load` does about a segment, by `p_type`. -/
inductive SegmentKind where
  | ignored
  | refused
  | loaded
  deriving DecidableEq

/-- The cases of `p_type`: `PT_DYNAMIC`, `PT_INTERP` and `PT_SHLIB` are refused, `PT_LOAD` is
loaded. -/
def Phdr.kind (phdr : Phdr) : SegmentKind :=
  match phdr.type with
  | 1 => .loaded
  | 2 | 3 | 5 => .refused
  | _ => .ignored

/-- `(p_flags & PF_W) != 0`. -/
def Phdr.writable (phdr : Phdr) : Bool :=
  phdr.flags &&& 2 ≠ 0

/-- What is checked of the header: `e_ident` is `"\177ELF\1\1\1"`, and so on. -/
def Ehdr.acceptable (ehdr : Ehdr) : Bool :=
  ehdr.ident.take 7 = [0x7f, 0x45, 0x4c, 0x46, 1, 1, 1] ∧ ehdr.type = 2 ∧ ehdr.machine = 3 ∧
    ehdr.version = 1 ∧ ehdr.phentsize = phdrSize ∧ ¬ehdr.phnum > 1024

/-! ## The code -/

/-- The result of `uint32_t` arithmetic.  With `strict`, one that wraps is a failure. -/
def uint32 (strict : Bool) (n : Int) : Option Nat :=
  if strict ∧ ¬(0 ≤ n ∧ n < unsignedSize) then none else some (n % unsignedSize).toNat

/-- `ROUND_UP (x, PGSIZE)`. -/
def roundUp (strict : Bool) (x : Nat) : Option Nat := do
  let sum ← uint32 strict (x + pgsize)
  let sum ← uint32 strict (sum - 1)
  uint32 strict (sum / pgsize * pgsize : Nat)

/-- `va & ~PGMASK`. -/
def pageStart (va : Nat) : Nat :=
  va - pgOfs va

/-- `validate_segment`, with the length of the file. -/
def validateSegment (phdr : Phdr) (fileLength : Int) : Bool :=
  if pgOfs phdr.offset ≠ pgOfs phdr.vaddr then false
  else if phdr.offset > ofOff fileLength then false
  else if phdr.memsz < phdr.filesz then false
  else if phdr.memsz = 0 then false
  else if ¬phdr.vaddr < physBase then false
  else if ¬(phdr.vaddr + phdr.memsz) % unsignedSize < physBase then false
  else if (phdr.vaddr + phdr.memsz) % unsignedSize < phdr.vaddr then false
  else if phdr.vaddr < pgsize then false
  else true

/-- `read_bytes` and `zero_bytes` of a segment. -/
def segmentBytes (strict : Bool) (phdr : Phdr) : Option (Nat × Nat) := do
  let pageOffset := pgOfs phdr.vaddr
  if phdr.filesz > 0 then
    let readBytes ← uint32 strict (pageOffset + phdr.filesz)
    let rounded ← roundUp strict (← uint32 strict (pageOffset + phdr.memsz))
    some (readBytes, ← uint32 strict (rounded - readBytes))
  else
    some (0, ← roundUp strict (← uint32 strict (pageOffset + phdr.memsz)))

/-- What `load` changes: the file system, memory, the thread's `pagedir`, and what has been
printed. -/
structure Process where
  fs : Fs
  space : Space
  pagedir : Option Nat
  console : List Byte

namespace Process
section Code
variable (ramPages initPageDir : Nat)

/-- The body of the loop in `load_segment`, up to the next page. -/
def loadPage (p : Process) (f pd upage pageReadBytes pageZeroBytes : Nat) (writable : Bool) :
    Option (Process × Bool) := do
  match p.space.pallocGetPage with
  | (space, none) => some ({ p with space }, false)
  | (space, some kpage) =>
    let (fs, bytes) ← p.fs.fileRead f pageReadBytes
    let space := { space with frames := space.frames.store kpage bytes }
    if bytes.length ≠ pageReadBytes then
      some ({ p with fs, space := space.pallocFreePage kpage }, false)
    else
      let frames := space.frames.fill ⟨kpage + pageReadBytes, pageZeroBytes⟩ 0
      match ← { space with frames }.installPage ramPages initPageDir pd upage kpage writable with
      | (space, false) => some ({ p with fs, space := space.pallocFreePage kpage }, false)
      | (space, true) => some ({ p with fs, space }, true)

/-- The loop of `load_segment`, with how many rounds it may take. -/
def loadPages (strict : Bool) (f pd : Nat) (writable : Bool) :
    Nat → Process → Nat → Nat → Nat → Option (Process × Bool)
  | 0, _, _, _, _ => none
  | left + 1, p, upage, readBytes, zeroBytes => do
    if readBytes > 0 ∨ zeroBytes > 0 then
      let pageReadBytes := if readBytes < pgsize then readBytes else pgsize
      let pageZeroBytes ← uint32 strict (pgsize - pageReadBytes)
      match ← p.loadPage ramPages initPageDir f pd upage pageReadBytes pageZeroBytes writable with
      | (p, false) => some (p, false)
      | (p, true) =>
        let readBytes ← uint32 strict (readBytes - pageReadBytes)
        let zeroBytes ← uint32 strict (zeroBytes - pageZeroBytes)
        loadPages strict f pd writable left p ((upage + pgsize) % unsignedSize) readBytes zeroBytes
    else
      some (p, true)

/-- `load_segment`. -/
def loadSegment (strict : Bool) (p : Process) (f pd : Nat) (ofs : Int)
    (upage readBytes zeroBytes : Nat) (writable : Bool) : Option (Process × Bool) := do
  let sum ← uint32 strict (readBytes + zeroBytes)
  assert (sum % pgsize = 0)
  assert (pgOfs upage = 0)
  assert (ofs.tmod pgsize = 0)
  let fs ← p.fs.fileSeek f ofs
  loadPages ramPages initPageDir strict f pd writable (sum / pgsize + 1) { p with fs } upage
    readBytes zeroBytes

/-- The case `PT_LOAD` in `load`. -/
def loadPhdr (strict : Bool) (p : Process) (f pd : Nat) (phdr : Phdr) :
    Option (Process × Bool) := do
  if validateSegment phdr (← p.fs.fileLength f) then
    let (readBytes, zeroBytes) ← segmentBytes strict phdr
    p.loadSegment ramPages initPageDir strict f pd (toOff (pageStart phdr.offset))
      (pageStart phdr.vaddr) readBytes zeroBytes phdr.writable
  else
    some (p, false)

/-- The loop of `load` over the program headers, of which there are so many to come. -/
def loadHeaders (strict : Bool) (f pd : Nat) : Nat → Process → Int → Option (Process × Bool)
  | 0, p, _ => some (p, true)
  | left + 1, p, fileOfs => do
    if fileOfs < 0 ∨ fileOfs > (← p.fs.fileLength f) then
      some (p, false)
    else
      let fs ← p.fs.fileSeek f fileOfs
      let (fs, bytes) ← fs.fileRead f phdrSize
      let p := { p with fs }
      if bytes.length ≠ phdrSize then
        some (p, false)
      else
        let phdr := Phdr.ofBytes bytes
        let fileOfs := wrap (fileOfs + phdrSize)
        match phdr.kind with
        | .ignored => loadHeaders strict f pd left p fileOfs
        | .refused => some (p, false)
        | .loaded =>
          match ← p.loadPhdr ramPages initPageDir strict f pd phdr with
          | (p, false) => some (p, false)
          | (p, true) => loadHeaders strict f pd left p fileOfs

/-- `setup_stack`: whether it succeeds.  `*esp` is `PHYS_BASE` then. -/
def setupStack (p : Process) (pd : Nat) : Option (Process × Bool) := do
  match p.space.pallocGetPage with
  | (space, none) => some ({ p with space }, false)
  | (space, some kpage) =>
    let space := { space with frames := space.frames.fill ⟨kpage, pgsize⟩ 0 }
    match ← space.installPage ramPages initPageDir pd (physBase - pgsize) kpage true with
    | (space, false) => some ({ p with space := space.pallocFreePage kpage }, false)
    | (space, true) => some ({ p with space }, true)

/-- A message of `load`. -/
def print (p : Process) (fileName : CharPtr) (message : String) : Process :=
  { p with console := p.console ++ "load: ".toList.map ch ++ string fileName ++
      message.toList.map ch }

/-- `load`, once the file is open: `*eip` and `*esp`, if it succeeds. -/
def loadFile (strict : Bool) (p : Process) (f pd : Nat) (fileName : CharPtr) :
    Option (Process × Option (Nat × Nat)) := do
  let (fs, bytes) ← p.fs.fileRead f ehdrSize
  let p := { p with fs }
  let ehdr := Ehdr.ofBytes bytes
  if bytes.length ≠ ehdrSize ∨ ¬ehdr.acceptable then
    some (p.print fileName ": error loading executable\n", none)
  else
    match ← loadHeaders ramPages initPageDir strict f pd ehdr.phnum p (toOff ehdr.phoff) with
    | (p, false) => some (p, none)
    | (p, true) =>
      match ← p.setupStack ramPages initPageDir pd with
      | (p, false) => some (p, none)
      | (p, true) => some (p, some (ehdr.entry, physBase))

/-- `load`. -/
def load (strict : Bool) (p : Process) (fileName : CharPtr) :
    Option (Process × Option (Nat × Nat)) := do
  let (tables, pagedir) := pagedirCreate p.space.tables initPageDir p.space.kernelPages.head?.join
  let p := { p with
    space := { p.space with tables, kernelPages := p.space.kernelPages.tail }, pagedir }
  match pagedir with
  | none => some (p, none)
  | some pd =>
    match ← p.fs.filesysOpen fileName with
    | (fs, none) => some ({ p with fs }.print fileName ": open failed\n", none)
    | (fs, some f) =>
      let (p, result) ← { p with fs }.loadFile ramPages initPageDir strict f pd fileName
      some ({ p with fs := ← p.fs.fileClose f }, result)

end Code
end Process

/-! ## Segments -/

theorem uint32_natCast {n : Nat} (h : n < unsignedSize) (strict : Bool) :
    uint32 strict n = some n := by
  have hin : (0 : Int) ≤ n ∧ (n : Int) < unsignedSize := ⟨Int.natCast_nonneg n, Int.ofNat_lt.mpr h⟩
  rw [uint32, if_neg fun hand => hand.2 hin, ← Int.natCast_emod, Int.toNat_natCast,
    Nat.mod_eq_of_lt h]

theorem roundUp_eq {x : Nat} (h : x + pgsize < unsignedSize) (strict : Bool) :
    roundUp strict x = some ((x + pgsize - 1) / pgsize * pgsize) := by
  have hpos : 1 ≤ x + pgsize := Nat.le_add_left 1 (x + 4095)
  have hle : (x + pgsize - 1) / pgsize * pgsize ≤ x + pgsize - 1 := Nat.div_mul_le_self _ _
  have hsum : ((x : Int) + pgsize) = (x + pgsize : Nat) := by rw [Int.natCast_add]
  have hsub : ((x + pgsize : Nat) : Int) - 1 = (x + pgsize - 1 : Nat) := by
    rw [Int.natCast_sub hpos, Int.natCast_one]
  rw [roundUp, hsum, uint32_natCast h, some_bind, hsub, uint32_natCast (Nat.lt_of_le_of_lt
    (Nat.sub_le _ _) h), some_bind, uint32_natCast (by omega)]

/-- **A segment that can be loaded**: it is inside the user pages, and not in the first one. -/
structure ValidSegment (phdr : Phdr) (length : Nat) : Prop where
  aligned : pgOfs phdr.offset = pgOfs phdr.vaddr
  inside : phdr.offset ≤ length
  filesz_le : phdr.filesz ≤ phdr.memsz
  memsz_pos : 0 < phdr.memsz
  low : pgsize ≤ phdr.vaddr
  high : phdr.vaddr + phdr.memsz < physBase

section Segment
variable {phdr : Phdr} {length : Nat}

/-- **What `validate_segment` accepts.**  No sum that wraps passes its tests. -/
theorem validateSegment_iff (hlength : length < 2147483648) (hvaddr : phdr.vaddr < unsignedSize)
    (hmemsz : phdr.memsz < unsignedSize) :
    validateSegment phdr length = true ↔ ValidSegment phdr length := by
  have hofOff : ofOff length = length := by
    rw [ofOff]
    omega
  rw [unsignedSize] at hvaddr hmemsz
  have hwrap : (phdr.vaddr + phdr.memsz) % unsignedSize < physBase ∧
      ¬(phdr.vaddr + phdr.memsz) % unsignedSize < phdr.vaddr ∧ phdr.vaddr < physBase ↔
      phdr.vaddr + phdr.memsz < physBase := by
    rw [unsignedSize, physBase]
    omega
  rw [validateSegment, hofOff]
  simp only [Bool.if_false_left, Bool.and_true, Bool.and_eq_true, Bool.not_eq_true',
    decide_eq_false_iff_not, not_not]
  constructor
  · rintro ⟨h1, h2, h3, h4, h5, h6, h7, h8⟩
    exact ⟨h1, by omega, by omega, by omega, by omega, hwrap.mp ⟨h6, h7, h5⟩⟩
  · rintro ⟨h1, h2, h3, h4, h5, h6⟩
    obtain ⟨h7, h8, h9⟩ := hwrap.mpr h6
    exact ⟨h1, by omega, by omega, by omega, h9, h7, h8, by omega⟩

/-- How many pages a segment is in. -/
def Phdr.pages (phdr : Phdr) : Nat :=
  (pgOfs phdr.vaddr + phdr.memsz + pgsize - 1) / pgsize

/-- How many bytes of these pages are read from the file. -/
def Phdr.readBytes (phdr : Phdr) : Nat :=
  if phdr.filesz > 0 then pgOfs phdr.vaddr + phdr.filesz else 0

theorem pageStart_add_pgOfs (va : Nat) : pageStart va + pgOfs va = va :=
  Nat.sub_add_cancel (Nat.mod_le va pgsize)

theorem pgOfs_lt (va : Nat) : pgOfs va < pgsize :=
  Nat.mod_lt va (by decide)

theorem pgOfs_pageStart (va : Nat) : pgOfs (pageStart va) = 0 := by
  rw [pageStart, pgOfs, pgOfs, pgsize]
  omega

namespace ValidSegment
variable (h : ValidSegment phdr length)
include h

/-- The pages are user pages, but not the first one. -/
theorem bounds : pgsize ≤ pageStart phdr.vaddr ∧
    pageStart phdr.vaddr + phdr.pages * pgsize ≤ physBase ∧
    pgOfs phdr.vaddr + phdr.memsz ≤ phdr.pages * pgsize := by
  have hlow := h.low
  have hhigh := h.high
  have hofs := pageStart_add_pgOfs phdr.vaddr
  have hlt := pgOfs_lt phdr.vaddr
  have haligned := pgOfs_pageStart phdr.vaddr
  rw [Phdr.pages]
  rw [pgOfs] at haligned
  rw [physBase] at *
  rw [pgsize] at *
  omega

theorem readBytes_le : phdr.readBytes ≤ phdr.pages * pgsize := by
  have hbounds := h.bounds.2.2
  have hfilesz := h.filesz_le
  rw [Phdr.readBytes]
  split <;> omega

/-- **`read_bytes` and `zero_bytes` are what they are meant to be**: nothing wraps. -/
theorem segmentBytes_eq (strict : Bool) :
    segmentBytes strict phdr = some (phdr.readBytes, phdr.pages * pgsize - phdr.readBytes) := by
  have hbounds := h.bounds
  have hread := h.readBytes_le
  have hofs := pgOfs_lt phdr.vaddr
  have hfilesz := h.filesz_le
  have hhigh := h.high
  have hmem : pgOfs phdr.vaddr + phdr.memsz + pgsize < unsignedSize := by
    rw [physBase] at hhigh
    rw [pgsize] at *
    rw [unsignedSize]
    omega
  have hround := roundUp_eq hmem strict
  have hsum : ∀ n : Nat, ((pgOfs phdr.vaddr : Int) + n) = (pgOfs phdr.vaddr + n : Nat) := fun n => by
    rw [Int.natCast_add]
  rw [segmentBytes]
  by_cases hpos : phdr.filesz > 0
  · have hbytes : phdr.readBytes = pgOfs phdr.vaddr + phdr.filesz := if_pos hpos
    have hsub : (((pgOfs phdr.vaddr + phdr.memsz + pgsize - 1) / pgsize * pgsize : Nat) : Int) -
        (pgOfs phdr.vaddr + phdr.filesz : Nat) =
        (phdr.pages * pgsize - (pgOfs phdr.vaddr + phdr.filesz) : Nat) := by
      rw [Int.natCast_sub (hbytes ▸ hread)]
      rfl
    have hlt : phdr.pages * pgsize - (pgOfs phdr.vaddr + phdr.filesz) < unsignedSize := by
      rw [physBase] at hbounds
      rw [unsignedSize]
      omega
    simp only [if_pos hpos, hsum, uint32_natCast (show pgOfs phdr.vaddr + phdr.filesz < unsignedSize by
      omega), uint32_natCast (show pgOfs phdr.vaddr + phdr.memsz < unsignedSize by omega), hround,
      some_bind, hsub, uint32_natCast hlt, hbytes]
  · have hbytes : phdr.readBytes = 0 := if_neg hpos
    simp only [if_neg hpos, hsum, uint32_natCast (show pgOfs phdr.vaddr + phdr.memsz < unsignedSize by
      omega), hround, some_bind, hbytes, Nat.sub_zero]
    rfl

end ValidSegment
end Segment

end Pintos
