import Pintos.CString

/-!
# Inodes on a device

The parts of `filesys/inode.c` that work on one inode: the inode as it is written to a
sector, where its bytes are, and the loops of `inode_read_at` and `inode_write_at`, which
go through the data sector by sector, with a bounce buffer for parts of a sector.

The data of an inode is one run of sectors, so that its bytes are one run of bytes on the
device.  **Reading and writing an inode is reading and writing this run**
(`readLoop_spec`, `writeLoop_spec`), as far as it goes, or less if there is no memory for
the bounce buffer.
-/

namespace Pintos.Filesys
open List
open Memory (drop_load take_load store_append store_load length_load store_of_lt store_nil)

/-! ## The device -/

/-- `BLOCK_SECTOR_SIZE`. -/
def sectorSize : Nat := 512

/-- `struct block`: its size in sectors, and its bytes. -/
structure Device where
  size : Nat
  bytes : Memory

/-- `block_read`; it panics behind the end of the device. -/
def Device.blockRead (d : Device) (sector : Nat) : Option (List Byte) := do
  assert (sector < d.size)
  some (d.bytes.load (sectorSize * sector) sectorSize)

/-- `block_write`, from a buffer given by the bytes from there to the end of the object. -/
def Device.blockWrite (d : Device) (sector : Nat) (buffer : List Byte) : Option Device := do
  assert (sector < d.size)
  assert (sectorSize ≤ buffer.length)
  some { d with bytes := d.bytes.store (sectorSize * sector) (buffer.take sectorSize) }

/-! ## Words -/

/-- The bytes of a 32-bit word, the lowest first. -/
def leBytes (v : Nat) : List Byte :=
  [BitVec.ofNat 8 v, BitVec.ofNat 8 (v / 256), BitVec.ofNat 8 (v / 65536),
    BitVec.ofNat 8 (v / 16777216)]

/-- The word that the first four bytes make. -/
def leWord (bytes : List Byte) : Nat :=
  (bytes.getD 0 0).toNat + 256 * (bytes.getD 1 0).toNat + 65536 * (bytes.getD 2 0).toNat +
    16777216 * (bytes.getD 3 0).toNat

theorem leWord_lt (bytes : List Byte) : leWord bytes < unsignedSize := by
  rw [leWord, unsignedSize]
  omega

/-- **A word reads back.** -/
theorem leWord_leBytes {v : Nat} (hv : v < unsignedSize) (rest : List Byte) :
    leWord (leBytes v ++ rest) = v := by
  rw [unsignedSize] at hv
  simp only [leWord, leBytes, cons_append, getD_cons_zero, getD_cons_succ,
    BitVec.toNat_ofNat]
  omega

/-- The `off_t` with the given bits. -/
def toOff (v : Nat) : Int :=
  if v < 2147483648 then v else v - 4294967296

/-- The bits of an `off_t`. -/
def ofOff (n : Int) : Nat :=
  (n % 4294967296).toNat

theorem toOff_ofOff {n : Int} (hlo : -2147483648 ≤ n) (hhi : n < 2147483648) :
    toOff (ofOff n) = n := by
  rw [toOff, ofOff]
  split <;> omega

theorem ofOff_lt (n : Int) : ofOff n < unsignedSize := by
  rw [ofOff, unsignedSize]
  omega

/-! ## Inodes -/

/-- `struct inode_disk`, without what is not used. -/
structure InodeDisk where
  start : Nat
  length : Int
  magic : Nat
  deriving DecidableEq

/-- `INODE_MAGIC`. -/
def inodeMagic : Nat := 0x494e4f44

/-- The bytes of the structure. -/
def InodeDisk.bytes (i : InodeDisk) : List Byte :=
  leBytes i.start ++ leBytes (ofOff i.length) ++ leBytes i.magic ++ List.replicate 500 0

/-- The structure with the given bytes. -/
def InodeDisk.ofBytes (bytes : List Byte) : InodeDisk where
  start := leWord bytes
  length := toOff (leWord (bytes.drop 4))
  magic := leWord (bytes.drop 8)

theorem InodeDisk.length_bytes (i : InodeDisk) : i.bytes.length = sectorSize := by
  rw [bytes, length_append, length_replicate]
  rfl

/-- **An inode reads back.** -/
theorem InodeDisk.ofBytes_bytes {i : InodeDisk} (hstart : i.start < unsignedSize)
    (hlo : -2147483648 ≤ i.length) (hhi : i.length < 2147483648) (hmagic : i.magic < unsignedSize) :
    ofBytes i.bytes = i := by
  have h4 : i.bytes.drop 4 = leBytes (ofOff i.length) ++ (leBytes i.magic ++ .replicate 500 0) := by
    rw [bytes, append_assoc, append_assoc]
    rfl
  have h8 : i.bytes.drop 8 = leBytes i.magic ++ .replicate 500 0 := by
    rw [bytes, append_assoc, append_assoc]
    rfl
  rw [ofBytes, h4, h8, leWord_leBytes (ofOff_lt _), leWord_leBytes hmagic, toOff_ofOff hlo hhi,
    bytes, append_assoc, append_assoc, leWord_leBytes hstart]

/-- `bytes_to_sectors`.  The sum is an `int`, and wraps for the largest sizes. -/
def bytesToSectors (size : Int) : Nat :=
  ofOff ((toOff (ofOff (size + sectorSize - 1))).tdiv sectorSize)

/-- `byte_to_sector`; -1 as an unsigned number if there is no such byte. -/
def byteToSector (i : InodeDisk) (pos : Nat) : Nat :=
  if pos < i.length then (i.start + pos / sectorSize) % unsignedSize else unsignedSize - 1

/-- Every byte is in one of the sectors. -/
theorem lt_bytesToSectors {size : Int} {pos : Nat} (hpos : pos < size) (hsize : size < 2147483648) :
    pos / sectorSize < bytesToSectors size := by
  rw [bytesToSectors, toOff, ofOff, ofOff, sectorSize]
  have hmod : (size + (512 : Nat) - 1) % 4294967296 = size + 511 := by omega
  rw [hmod]
  split
  · rw [Int.tdiv_eq_ediv_of_nonneg (by omega)]
    omega
  · -- the sum has wrapped, to a negative number, and the quotient to a large one
    have hneg : ((size + 511).toNat : Int) - 4294967296 = -(4294967296 - (size + 511)) := by omega
    rw [hneg, Int.neg_tdiv, Int.tdiv_eq_ediv_of_nonneg (by omega)]
    omega

/-! ## Reading and writing -/

/-- `chunk_size`: the number of bytes to copy out of, or into, the sector. -/
def chunkSize (i : InodeDisk) (size : Int) (offset : Nat) : Int :=
  let inodeLeft := i.length - offset
  let sectorLeft : Int := sectorSize - (offset % sectorSize : Nat)
  let minLeft := if inodeLeft < sectorLeft then inodeLeft else sectorLeft
  if size < minLeft then size else minLeft

/-- The loop of `inode_read_at`, with how many rounds it may take: what it reads.  `bounce`
says whether there is memory for the bounce buffer. -/
def readLoop (d : Device) (i : InodeDisk) (bounce : Bool) : Nat → Int → Nat → Option (List Byte)
  | 0, _, _ => some []
  | left + 1, size, offset =>
    let sectorOfs := offset % sectorSize
    let chunk := chunkSize i size offset
    if size ≤ 0 ∨ chunk ≤ 0 then
      some []
    else if sectorOfs = 0 ∧ chunk = sectorSize then do
      let bytes ← d.blockRead (byteToSector i offset)
      some (bytes ++ (← readLoop d i bounce left (size - chunk) (offset + chunk.toNat)))
    else if bounce then do
      let bytes ← d.blockRead (byteToSector i offset)
      some ((bytes.drop sectorOfs).take chunk.toNat ++
        (← readLoop d i bounce left (size - chunk) (offset + chunk.toNat)))
    else
      some []

/-- `inode_read_at`: what is read. -/
def InodeDisk.readAt (i : InodeDisk) (d : Device) (bounce : Bool) (size : Int) (offset : Nat) :
    Option (List Byte) :=
  readLoop d i bounce size.toNat size offset

/-- The sector with some bytes of it replaced, as the bounce buffer has it. -/
def bounced (d : Device) (sector sectorOfs : Nat) (chunk : List Byte) : Option (List Byte) := do
  let bounce ←
    if sectorOfs > 0 ∨ chunk.length < sectorSize - sectorOfs then d.blockRead sector
    else some (List.replicate sectorSize 0)
  some (bounce.take sectorOfs ++ chunk ++ bounce.drop (sectorOfs + chunk.length))

/-- The loop of `inode_write_at`, with how many rounds it may take: the device, and how many
bytes are written. -/
def writeLoop (i : InodeDisk) (bounce : Bool) :
    Nat → Device → List Byte → Int → Nat → Option (Device × Nat)
  | 0, d, _, _, _ => some (d, 0)
  | left + 1, d, buffer, size, offset =>
    let sectorOfs := offset % sectorSize
    let chunk := chunkSize i size offset
    if size ≤ 0 ∨ chunk ≤ 0 then
      some (d, 0)
    else if sectorOfs = 0 ∧ chunk = sectorSize then do
      let d ← d.blockWrite (byteToSector i offset) buffer
      let (d, written) ← writeLoop i bounce left d (buffer.drop chunk.toNat) (size - chunk)
        (offset + chunk.toNat)
      some (d, chunk.toNat + written)
    else if bounce then do
      let bytes ← bounced d (byteToSector i offset) sectorOfs (buffer.take chunk.toNat)
      let d ← d.blockWrite (byteToSector i offset) bytes
      let (d, written) ← writeLoop i bounce left d (buffer.drop chunk.toNat) (size - chunk)
        (offset + chunk.toNat)
      some (d, chunk.toNat + written)
    else
      some (d, 0)

/-- `inode_write_at`, where writes are not denied: the device, and how many bytes are
written. -/
def InodeDisk.writeAt (i : InodeDisk) (d : Device) (bounce : Bool) (buffer : List Byte) (size : Int)
    (offset : Nat) : Option (Device × Nat) :=
  writeLoop i bounce size.toNat d buffer size offset

/-! ## The bytes of an inode -/

/-- The inode's sectors are on the device. -/
structure OnDevice (d : Device) (i : InodeDisk) : Prop where
  length_nonneg : 0 ≤ i.length
  length_lt : i.length < 2147483648
  inside : i.start + bytesToSectors i.length ≤ d.size
  size_lt : d.size < unsignedSize

/-- Where a byte of the inode is on the device. -/
def InodeDisk.at (i : InodeDisk) (offset : Nat) : Nat :=
  sectorSize * i.start + offset

/-- How many of `size` bytes from `offset` on there are. -/
def InodeDisk.available (i : InodeDisk) (size : Int) (offset : Nat) : Nat :=
  (min size (i.length - offset)).toNat

section Loops
variable {d : Device} {i : InodeDisk} {bounce : Bool} {size : Int} {offset : Nat}

theorem chunkSize_le (i : InodeDisk) (size : Int) (offset : Nat) :
    chunkSize i size offset ≤ size ∧
    chunkSize i size offset ≤ i.length - offset ∧
      chunkSize i size offset ≤ sectorSize - (offset % sectorSize : Nat) := by
  rw [chunkSize]
  split <;> split <;> omega

theorem available_of_not_pos (h : size ≤ 0 ∨ chunkSize i size offset ≤ 0) :
    i.available size offset = 0 := by
  rw [chunkSize] at h
  have hmod : offset % sectorSize < sectorSize := Nat.mod_lt _ (by decide)
  rw [InodeDisk.available]
  split at h <;> split at h <;> omega

/-- After a chunk. -/
theorem available_of_pos (h : ¬(size ≤ 0 ∨ chunkSize i size offset ≤ 0)) :
    i.available size offset = (chunkSize i size offset).toNat +
      i.available (size - chunkSize i size offset) (offset + (chunkSize i size offset).toNat) := by
  obtain ⟨h1, h2, -⟩ := chunkSize_le i size offset
  rw [InodeDisk.available, InodeDisk.available]
  omega

/-- The sector of a byte of the inode is on the device. -/
theorem OnDevice.sector_eq (h : OnDevice d i) (hoffset : offset < i.length) :
    byteToSector i offset = i.start + offset / sectorSize ∧
      byteToSector i offset < d.size := by
  have hlt := lt_bytesToSectors hoffset h.length_lt
  have hsum : i.start + offset / sectorSize < d.size := Nat.lt_of_lt_of_le
    (Nat.add_lt_add_left hlt _) h.inside
  rw [byteToSector, if_pos hoffset, Nat.mod_eq_of_lt (Nat.lt_trans hsum h.size_lt)]
  exact ⟨rfl, hsum⟩

/-- Where a byte is, by its sector and its place there. -/
theorem OnDevice.at_eq (h : OnDevice d i) (hoffset : offset < i.length) :
    sectorSize * byteToSector i offset + offset % sectorSize = i.at offset := by
  rw [(h.sector_eq hoffset).1, InodeDisk.at, sectorSize]
  omega

variable {left : Nat}

/-- **Reading gives the bytes of the inode**, all that there are if there is memory. -/
theorem readLoop_spec (h : OnDevice d i) (bounce : Bool) (offset : Nat) (hleft : size ≤ left) :
    ∃ r, r ≤ i.available size offset ∧ (bounce = true → r = i.available size offset) ∧
      readLoop d i bounce left size offset = some (d.bytes.load (i.at offset) r) := by
  induction left generalizing size offset with
  | zero =>
    have hnone : i.available size offset = 0 := available_of_not_pos (.inl hleft)
    exact ⟨0, Nat.zero_le _, fun _ => hnone.symm, rfl⟩
  | succ left ih =>
    rw [readLoop]
    by_cases hpos : size ≤ 0 ∨ chunkSize i size offset ≤ 0
    · have hnone := available_of_not_pos hpos
      exact ⟨0, Nat.zero_le _, fun _ => hnone.symm, if_pos hpos⟩
    rw [if_neg hpos, available_of_pos hpos]
    obtain ⟨hsize, hlength, hsector⟩ := chunkSize_le i size offset
    have hoffset : offset < i.length := by omega
    have hread : d.blockRead (byteToSector i offset) =
        some (d.bytes.load (sectorSize * byteToSector i offset) sectorSize) := by
      rw [Device.blockRead, assert_of (h.sector_eq hoffset).2]
      rfl
    obtain ⟨r, hr, hall, hrest⟩ := @ih (size - chunkSize i size offset)
      (offset + (chunkSize i size offset).toNat) (by omega)
    generalize hchunk : (chunkSize i size offset).toNat = n at *
    have hload : d.bytes.load (i.at offset) (n + r) =
        d.bytes.load (i.at offset) n ++ d.bytes.load (i.at (offset + n)) r := by
      rw [Memory.load_add, InodeDisk.at, InodeDisk.at, Nat.add_assoc]
    split
    · rename_i hwhole
      refine ⟨n + r, Nat.add_le_add_left hr n, fun hb => by rw [hall hb], ?_⟩
      have hn : n = sectorSize := by omega
      have hat := h.at_eq hoffset
      rw [hwhole.1, Nat.add_zero] at hat
      rw [hread, hrest, hload, hn, hat]
      rfl
    · split
      · refine ⟨n + r, Nat.add_le_add_left hr n, fun hb => by rw [hall hb], ?_⟩
        rw [hread, hrest, hload]
        simp only [some_bind]
        rw [drop_load, take_load, h.at_eq hoffset, Nat.min_eq_left (by omega)]
      · rename_i hb
        exact ⟨0, Nat.zero_le _, fun hb' => absurd hb' hb, rfl⟩

/-- A part of a sector is written by way of the bounce buffer. -/
theorem bounced_spec {sector : Nat} (sectorOfs : Nat) (chunk : List Byte) (hsector : sector < d.size)
    (hfits : sectorOfs + chunk.length ≤ sectorSize) :
    ∃ bytes, bounced d sector sectorOfs chunk = some bytes ∧
      d.blockWrite sector bytes =
        some { d with bytes := d.bytes.store (sectorSize * sector + sectorOfs) chunk } := by
  have hwrite : ∀ bounce : List Byte, bounce.length = sectorSize →
      (sectorOfs > 0 ∨ chunk.length < sectorSize - sectorOfs →
        bounce = d.bytes.load (sectorSize * sector) sectorSize) →
      d.blockWrite sector (bounce.take sectorOfs ++ chunk ++ bounce.drop (sectorOfs + chunk.length))
        = some { d with bytes := d.bytes.store (sectorSize * sector + sectorOfs) chunk } := by
    intro bounce hlength hsame
    have hlen : (bounce.take sectorOfs ++ chunk ++ bounce.drop (sectorOfs + chunk.length)).length =
        sectorSize := by
      simp only [length_append, length_take, length_drop]
      omega
    rw [Device.blockWrite, assert_of hsector, assert_of (Nat.le_of_eq hlen.symm),
      take_of_length_le (Nat.le_of_eq hlen)]
    refine congrArg (fun bytes => some { d with bytes }) ?_
    by_cases hpart : sectorOfs > 0 ∨ chunk.length < sectorSize - sectorOfs
    · -- what is in front of the chunk and behind it is written back as it was
      rw [hsame hpart, take_load, drop_load, Nat.min_eq_left (by omega),
        store_append, store_append, store_load, length_load,
        length_append, length_load, ← Nat.add_assoc]
      have hbehind : ∀ a n, (d.bytes.store a chunk).load (a + chunk.length) n =
          d.bytes.load (a + chunk.length) n := fun a n =>
        Memory.load_congr fun k _ => store_of_lt (.inr (Nat.le_add_right _ k))
      rw [← hbehind, store_load]
    · have hofs : sectorOfs = 0 := by omega
      have hall : chunk.length = bounce.length := by omega
      rw [hofs, Nat.zero_add, hall, drop_length, take_zero, nil_append,
        append_nil, Nat.add_zero]
  by_cases hpart : sectorOfs > 0 ∨ chunk.length < sectorSize - sectorOfs
  · refine ⟨_, ?_, hwrite (d.bytes.load (sectorSize * sector) sectorSize)
      (length_load _ _ _) fun _ => rfl⟩
    rw [bounced, if_pos hpart, Device.blockRead, assert_of hsector]
    rfl
  · refine ⟨_, ?_, hwrite (List.replicate sectorSize 0) (length_replicate ..)
      fun h => absurd h hpart⟩
    rw [bounced, if_neg hpart]
    rfl

/-- **Writing changes the bytes of the inode**, all that there are if there is memory. -/
theorem writeLoop_spec (h : OnDevice d i) (bounce : Bool) (offset : Nat) (hleft : size ≤ left)
    {buffer : List Byte} (hbuffer : size ≤ buffer.length) :
    ∃ w, w ≤ i.available size offset ∧ (bounce = true → w = i.available size offset) ∧
      writeLoop i bounce left d buffer size offset =
        some ({ d with bytes := d.bytes.store (i.at offset) (buffer.take w) }, w) := by
  induction left generalizing size offset d buffer with
  | zero =>
    have hnone : i.available size offset = 0 := available_of_not_pos (.inl hleft)
    refine ⟨0, Nat.zero_le _, fun _ => hnone.symm, ?_⟩
    rw [writeLoop, take_zero, store_nil]
  | succ left ih =>
    rw [writeLoop]
    by_cases hpos : size ≤ 0 ∨ chunkSize i size offset ≤ 0
    · have hnone := available_of_not_pos hpos
      refine ⟨0, Nat.zero_le _, fun _ => hnone.symm, ?_⟩
      rw [if_pos hpos, take_zero, store_nil]
    rw [if_neg hpos, available_of_pos hpos]
    obtain ⟨hsize, hlength, hsector⟩ := chunkSize_le i size offset
    have hoffset : offset < i.length := by omega
    have hdevice := (h.sector_eq hoffset).2
    generalize hchunk : (chunkSize i size offset).toNat = n at *
    have hn : n ≤ buffer.length := by omega
    -- the device after this round
    have h' : OnDevice { d with bytes := d.bytes.store (i.at offset) (buffer.take n) } i :=
      ⟨h.length_nonneg, h.length_lt, h.inside, h.size_lt⟩
    have hbuffer' : size - chunkSize i size offset ≤ ((buffer.drop n).length : Nat) := by
      rw [length_drop]
      omega
    obtain ⟨w, hw, hall, hrest⟩ := ih h' (offset + n) (by omega) hbuffer'
    have hstore : (d.bytes.store (i.at offset) (buffer.take n)).store (i.at (offset + n))
        ((buffer.drop n).take w) = d.bytes.store (i.at offset) (buffer.take (n + w)) := by
      rw [take_add, store_append, length_take, Nat.min_eq_left hn, InodeDisk.at,
        InodeDisk.at, Nat.add_assoc]
    rw [hstore] at hrest
    split
    · rename_i hwhole
      refine ⟨n + w, Nat.add_le_add_left hw n, fun hb => by rw [hall hb], ?_⟩
      have hnsize : n = sectorSize := by omega
      have hat := h.at_eq hoffset
      rw [hwhole.1, Nat.add_zero] at hat
      rw [Device.blockWrite, assert_of hdevice, assert_of (by omega), hat, ← hnsize]
      simp only [some_bind]
      rw [hrest]
      rfl
    · split
      · refine ⟨n + w, Nat.add_le_add_left hw n, fun hb => by rw [hall hb], ?_⟩
        obtain ⟨bytes, hbytes, hwrite⟩ := bounced_spec (offset % sectorSize)
          (buffer.take n) hdevice (by rw [length_take]; omega)
        rw [hbytes]
        simp only [some_bind]
        rw [hwrite, h.at_eq hoffset]
        simp only [some_bind]
        rw [hrest]
        rfl
      · rename_i hb
        refine ⟨0, Nat.zero_le _, fun hb' => absurd hb' hb, ?_⟩
        rw [take_zero, store_nil]

/-- Less than a sector is not read without a bounce buffer. -/
theorem readLoop_small (hsize : size < sectorSize) :
    readLoop d i false left size offset = some [] := by
  cases left with
  | zero => rfl
  | succ left =>
    have hle := (chunkSize_le i size offset).1
    have hpart : ¬(offset % sectorSize = 0 ∧ chunkSize i size offset = sectorSize) := by omega
    rw [readLoop, if_neg hpart, if_neg Bool.false_ne_true, ite_self]

/-- Less than a sector is not written without a bounce buffer. -/
theorem writeLoop_small {buffer : List Byte} (hsize : size < sectorSize) :
    writeLoop i false left d buffer size offset = some (d, 0) := by
  cases left with
  | zero => rfl
  | succ left =>
    have hle := (chunkSize_le i size offset).1
    have hpart : ¬(offset % sectorSize = 0 ∧ chunkSize i size offset = sectorSize) := by omega
    rw [writeLoop, if_neg hpart, if_neg Bool.false_ne_true, ite_self]

end Loops
end Pintos.Filesys
