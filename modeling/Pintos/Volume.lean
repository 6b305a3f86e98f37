import Mathlib.Data.Set.Basic
import Pintos.InodeHandles

/-!
# The sectors of inodes

An inode owns the sector it is in and the sectors of its data.  The free map has a bit
for every sector.  **The inodes of a file system own different sectors, all of them marked
in the free map** (`Owned`), and the inodes that are open are among them, with what is on
the device (`Volume`).

Every function of `filesys/inode.c` and `filesys/free-map.c` keeps this, whether or not
there is memory for what it needs: what it writes are sectors of the inode at hand, sectors
that were free, or sectors of the free map's own file.  For each function there is one
theorem that says what it returns, what it writes and what becomes of the inodes.
-/

namespace Pintos.Filesys
open List
open Objects (mem_of_get key_of_get mem_release mem_modify)
open Bitmap (byteCnt)

/-! ## Devices -/

/-- The inode in a sector. -/
def inodeAt (d : Device) (n : Nat) : InodeDisk :=
  InodeDisk.ofBytes (d.bytes.load (sectorSize * n) sectorSize)

/-- A sector of the data of an inode. -/
def InodeDisk.Has (i : InodeDisk) (k : Nat) : Prop :=
  i.start ≤ k ∧ k < i.start + bytesToSectors i.length

/-- A sector of the inode in sector `n`. -/
def Area (d : Device) (n k : Nat) : Prop :=
  k = n ∨ (inodeAt d n).Has k

/-- The sectors `P` have not changed. -/
structure Unchanged (d d' : Device) (P : Nat → Prop) : Prop where
  size : d'.size = d.size
  bytes : ∀ x, P (x / sectorSize) → d'.bytes x = d.bytes x

section Devices
variable {d d' d'' : Device} {P Q : Nat → Prop} {i : InodeDisk} {n k offset : Nat}

theorem Unchanged.refl (d : Device) (P : Nat → Prop) : Unchanged d d P :=
  ⟨rfl, fun _ _ => rfl⟩

theorem Unchanged.mono (h : Unchanged d d' P) (hPQ : ∀ k, Q k → P k) : Unchanged d d' Q :=
  ⟨h.size, fun x hx => h.bytes x (hPQ _ hx)⟩

theorem Unchanged.trans (h : Unchanged d d' P) (h' : Unchanged d' d'' P) : Unchanged d d'' P :=
  ⟨h'.size.trans h.size, fun x hx => (h'.bytes x hx).trans (h.bytes x hx)⟩

theorem sector_of_byte (n : Nat) (hk : k < sectorSize) : (sectorSize * n + k) / sectorSize = n := by
  rw [Nat.mul_add_div (by decide), Nat.div_eq_of_lt hk, Nat.add_zero]

theorem Unchanged.inodeAt (h : Unchanged d d' P) (hn : P n) : inodeAt d' n = inodeAt d n := by
  refine congrArg InodeDisk.ofBytes (Memory.load_congr fun k hk => h.bytes _ ?_)
  rw [sector_of_byte n hk]
  exact hn

/-- A byte of the data is in a sector of the data. -/
theorem OnDevice.has_of_lt (h : OnDevice d i) (hoffset : offset < i.length) :
    i.Has (i.at offset / sectorSize) := by
  have hlt := lt_bytesToSectors hoffset h.length_lt
  rw [InodeDisk.at, Nat.mul_add_div (by decide)]
  exact ⟨Nat.le_add_right _ _, Nat.add_lt_add_left hlt _⟩

theorem OnDevice.lt_of_has (h : OnDevice d i) (hk : i.Has k) : k < d.size :=
  Nat.lt_of_lt_of_le hk.2 h.inside

/-- Data in sectors that have not changed is the same. -/
theorem Unchanged.load (h : Unchanged d d' P) (hi : OnDevice d i) (hP : ∀ k, i.Has k → P k)
    {r : Nat} (hr : (offset + r : Nat) ≤ i.length) :
    d'.bytes.load (i.at offset) r = d.bytes.load (i.at offset) r := by
  refine Memory.load_congr fun k hk => h.bytes _ (hP _ ?_)
  have hlt : ((offset + k : Nat) : Int) < i.length := by omega
  have hhas := hi.has_of_lt hlt
  rwa [InodeDisk.at, ← Nat.add_assoc] at hhas

/-- Writing data changes sectors of the data only. -/
theorem unchanged_store (h : OnDevice d i) {bytes : List Byte}
    (hfits : (offset + bytes.length : Nat) ≤ i.length) :
    Unchanged d { d with bytes := d.bytes.store (i.at offset) bytes } fun k => ¬i.Has k := by
  refine ⟨rfl, fun x hx => Memory.store_of_notMem fun hmem => hx ?_⟩
  obtain ⟨j, rfl⟩ := Nat.exists_eq_add_of_le hmem.1
  have hlt : j < bytes.length := Nat.lt_of_add_lt_add_left hmem.2
  have hlt' : ((offset + j : Nat) : Int) < i.length := by omega
  have hhas := h.has_of_lt hlt'
  rwa [InodeDisk.at, ← Nat.add_assoc] at hhas

theorem OnDevice.congr (h : OnDevice d i) (hsize : d'.size = d.size) : OnDevice d' i :=
  ⟨h.length_nonneg, h.length_lt, hsize ▸ h.inside, hsize ▸ h.size_lt⟩

theorem blockWrite_spec {buffer : List Byte} (hn : n < d.size) (hbuffer : buffer.length = sectorSize) :
    ∃ d', d.blockWrite n buffer = some d' ∧ Unchanged d d' (· ≠ n) ∧
      d'.bytes.load (sectorSize * n) sectorSize = buffer := by
  refine ⟨{ d with bytes := d.bytes.store (sectorSize * n) buffer }, ?_, ⟨rfl, fun x hx => ?_⟩, ?_⟩
  · rw [Device.blockWrite, assert_of hn, assert_of (Nat.le_of_eq hbuffer.symm),
      take_of_length_le (Nat.le_of_eq hbuffer)]
    rfl
  · refine Memory.store_of_notMem fun hmem => hx ?_
    obtain ⟨j, rfl⟩ := Nat.exists_eq_add_of_le hmem.1
    exact sector_of_byte n (hbuffer ▸ Nat.lt_of_add_lt_add_left hmem.2)
  · have h := Memory.load_store d.bytes (sectorSize * n) buffer
    rwa [hbuffer] at h

/-- The loop of `inode_create`: the data is all zeros. -/
theorem writeZeros_spec {start sectors : Nat} (hfits : start + sectors ≤ d.size)
    (hsize : d.size < unsignedSize) :
    ∃ d', Fs.writeZeros d start sectors = some d' ∧
      Unchanged d d' (fun k => ¬(start ≤ k ∧ k < start + sectors)) ∧
      d'.bytes.load (sectorSize * start) (sectorSize * sectors) =
        List.replicate (sectorSize * sectors) 0 := by
  induction sectors with
  | zero => exact ⟨d, rfl, Unchanged.refl d _, rfl⟩
  | succ m ih =>
    -- the first `m` of the sectors are written
    obtain ⟨d', hcode, hsame, hzeros⟩ := ih (Nat.le_of_succ_le hfits)
    have hlt : start + m < d'.size := by
      rw [hsame.size]
      omega
    obtain ⟨d'', hcode', hsame', hzeros'⟩ := blockWrite_spec hlt
      (length_replicate (n := sectorSize) (a := (0 : Byte)))
    refine ⟨d'', ?_, ?_, ?_⟩
    · have hmod : (start + m) % unsignedSize = start + m := Nat.mod_eq_of_lt (by omega)
      rw [Fs.writeZeros] at hcode ⊢
      rw [range_succ, foldlM_append, hcode]
      simp only [some_bind, foldlM_cons, foldlM_nil, hmod, hcode']
      rfl
    · exact (hsame.mono fun k hk h => hk ⟨h.1, by omega⟩).trans
        (hsame'.mono fun k hk h => hk ⟨by omega, by omega⟩)
    · have hold : d''.bytes.load (sectorSize * start) (sectorSize * m) =
          d'.bytes.load (sectorSize * start) (sectorSize * m) := by
        refine Memory.load_congr fun k hk => hsame'.bytes _ ?_
        have hdiv : (sectorSize * start + k) / sectorSize < start + m := by
          rw [sectorSize] at hk ⊢
          omega
        exact Nat.ne_of_lt hdiv
      rw [Nat.mul_succ, Memory.load_add, hold, hzeros, ← Nat.mul_add, hzeros',
        replicate_append_replicate]

end Devices

/-! ## Ownership -/

/-- **The inodes in the sectors `nodes` own different sectors**, all on the device and all
marked in the free map. -/
structure Owned (d : Device) (b : Bitmap) (nodes : Set Nat) : Prop where
  bitCnt : b.bitCnt = d.size
  size_lt : d.size + 31 < unsignedSize
  lt : ∀ n ∈ nodes, n < d.size
  onDevice : ∀ n ∈ nodes, OnDevice d (inodeAt d n)
  marked : ∀ n ∈ nodes, ∀ k, Area d n k → b.bit k = true
  self : ∀ n ∈ nodes, ¬(inodeAt d n).Has n
  apart : ∀ n ∈ nodes, ∀ m ∈ nodes, n ≠ m → ∀ k, Area d n k → ¬Area d m k

namespace Owned
variable {d d' : Device} {b b' : Bitmap} {nodes nodes' : Set Nat} {n m k : Nat}

section
variable (h : Owned d b nodes)
include h

theorem area_lt (hn : n ∈ nodes) (hk : Area d n k) : k < d.size := by
  rcases hk with rfl | hk
  · exact h.lt k hn
  · exact (h.onDevice n hn).lt_of_has hk

/-- No inode is in the data of another, or of its own. -/
theorem not_has (hn : n ∈ nodes) (hm : m ∈ nodes) : ¬(inodeAt d m).Has n := by
  intro hhas
  by_cases hnm : n = m
  · exact h.self n hn (hnm ▸ hhas)
  · exact h.apart n hn m hm hnm n (.inl rfl) (.inr hhas)

/-- Fewer inodes. -/
theorem mono (hsub : nodes' ⊆ nodes) : Owned d b nodes' :=
  ⟨h.bitCnt, h.size_lt, fun n hn => h.lt n (hsub hn), fun n hn => h.onDevice n (hsub hn),
    fun n hn => h.marked n (hsub hn), fun n hn => h.self n (hsub hn),
    fun n hn m hm => h.apart n (hsub hn) m (hsub hm)⟩

/-- Only the sectors of the inodes themselves matter. -/
theorem unchanged {P : Nat → Prop} (hsame : Unchanged d d' P) (hP : ∀ n ∈ nodes, P n) :
    Owned d' b nodes := by
  have hinode : ∀ n ∈ nodes, inodeAt d' n = inodeAt d n := fun n hn => hsame.inodeAt (hP n hn)
  have harea : ∀ n ∈ nodes, ∀ k, Area d' n k ↔ Area d n k := fun n hn k => by
    rw [Area, Area, hinode n hn]
  refine ⟨h.bitCnt.trans hsame.size.symm, hsame.size ▸ h.size_lt, fun n hn => hsame.size ▸ h.lt n hn,
    fun n hn => ?_, fun n hn k hk => h.marked n hn k ((harea n hn k).mp hk), fun n hn => ?_,
    fun n hn m hm hnm k hk hk' => ?_⟩
  · rw [hinode n hn]
    exact (h.onDevice n hn).congr hsame.size
  · rw [hinode n hn]
    exact h.self n hn
  · exact h.apart n hn m hm hnm k ((harea n hn k).mp hk) ((harea m hm k).mp hk')

/-- Another free map in which the sectors of the inodes are marked. -/
theorem withFreeMap (hcnt : b'.bitCnt = b.bitCnt)
    (hbits : ∀ n ∈ nodes, ∀ k, Area d n k → b'.bit k = true) : Owned d b' nodes :=
  ⟨hcnt.trans h.bitCnt, h.size_lt, h.lt, h.onDevice, hbits, h.self, h.apart⟩

/-- One inode more, on sectors that are not owned. -/
theorem insert (hn : n < d.size) (hdevice : OnDevice d (inodeAt d n))
    (hmarked : ∀ k, Area d n k → b.bit k = true) (hself : ¬(inodeAt d n).Has n)
    (hfresh : ∀ m ∈ nodes, ∀ k, Area d n k → ¬Area d m k) : Owned d b (insert n nodes) := by
  refine ⟨h.bitCnt, h.size_lt, Set.forall_insert_of_forall h.lt hn,
    Set.forall_insert_of_forall h.onDevice hdevice, Set.forall_insert_of_forall h.marked hmarked,
    Set.forall_insert_of_forall h.self hself, ?_⟩
  rintro m (rfl | hm) m' (rfl | hm') hne k hk hk'
  · exact hne rfl
  · exact hfresh m' hm' k hk hk'
  · exact hfresh m hm k hk' hk
  · exact h.apart m hm m' hm' hne k hk hk'

end

end Owned

/-! ## Volumes -/

/-- The free map is on the device as it is in memory, but for the bits of the last word that
are not used. -/
def Saved (d : Device) (b : Bitmap) : Prop :=
  ∃ b' : Bitmap, b'.bitCnt = b.bitCnt ∧ (∀ k, k < b.bitCnt → b'.bit k = b.bit k) ∧
    d.bytes.load ((inodeAt d 0).at 0) (byteCnt b'.bitCnt) =
      b'.bytes.take (byteCnt b'.bitCnt)

theorem Saved.congr {d : Device} {b b' : Bitmap} (h : Saved d b) (hcnt : b'.bitCnt = b.bitCnt)
    (hsame : ∀ k, k < b.bitCnt → b'.bit k = b.bit k) : Saved d b' := by
  obtain ⟨b'', hcnt'', hbits'', hload⟩ := h
  refine ⟨b'', hcnt''.trans hcnt.symm, fun k hk => ?_, hload⟩
  have hk' : k < b.bitCnt := hcnt ▸ hk
  rw [hbits'' k hk', hsame k hk']

/-- The sectors to which the free map is written, when its file is open. -/
def MapArea (s : Fs) (k : Nat) : Prop :=
  s.freeMapFile.isSome = true ∧ (inodeAt s.device 0).Has k

/-- **A file system in order.**  The inodes own different sectors; those that are open are
among them, and are in memory as on the device; the counts are exact; no writes are denied;
the file of the free map, where there is one, is that of the inode in sector 0.  The files
are given apart from the state, as `file_close` closes the inode while the file is still
there. -/
structure Volume (s : Fs) (files : List File) (nodes : Set Nat) (held : List Nat) : Prop where
  counted : Counted ⟨s.inodes, files, s.next⟩ held
  owned : Owned s.device s.freeMap nodes
  opened : ∀ i ∈ s.inodes, i.sector ∈ nodes ∧ i.data = inodeAt s.device i.sector
  allowed : ∀ f ∈ files, f.denyWrite = false
  few : files.length ≤ maxFiles
  map : ∀ f, s.freeMapFile = some f → 0 ∈ nodes ∧
    (inodeAt s.device 0).length = byteCnt s.device.size ∧
    ∃ file i, s.file f = some file ∧ s.inode file.inode = some i ∧ i.sector = 0

/-- A sector that is marked in the free map and that no inode owns. -/
structure Reserved (s : Fs) (nodes : Set Nat) (n : Nat) : Prop where
  lt : n < s.device.size
  marked : s.freeMap.bit n = true
  fresh : ∀ m ∈ nodes, ¬Area s.device m n

namespace Fs

/-- The inode that has been changed. -/
theorem inode_setInode {s : Fs} {a : Nat} {i : Inode} (g : Inode → Inode)
    (hg : ∀ i, (g i).addr = i.addr) (hi : s.inode a = some i) :
    (s.setInode a g).inode a = some (g i) :=
  Objects.get_modify_self hg hi

theorem inode_setInode_of_ne {s : Fs} {a b : Nat} (g : Inode → Inode)
    (hg : ∀ i, (g i).addr = i.addr) (hb : b ≠ a) : (s.setInode a g).inode b = s.inode b :=
  Objects.get_modify_of_ne hg hb

theorem available_all {i : InodeDisk} {n : Nat} (h : i.length = n) : i.available n 0 = n := by
  rw [InodeDisk.available, h]
  omega

section Io
variable {s : Fs} {a : Nat} {i : Inode} {size : Int} {offset : Nat} {buffer : List Byte}

/-- **`inode_read_at`.**  A read of less than a sector is all or nothing. -/
theorem inodeReadAt_spec (hi : s.inode a = some i) (hd : OnDevice s.device i.data) (size : Int)
    (offset : Nat) :
    ∃ r, s.inodeReadAt a size offset =
        some ({ s with answers := s.answers.tail }, s.device.bytes.load (i.data.at offset) r) ∧
      r ≤ i.data.available size offset ∧
      (s.answers.headD true = true → r = i.data.available size offset) ∧
      (size < sectorSize → s.answers.headD true = false → r = 0) := by
  obtain ⟨r, hle, hall, hcode⟩ := readLoop_spec hd (s.answers.headD true) offset
    (Int.self_le_toNat size)
  refine ⟨r, ?_, hle, hall, fun hsize hno => ?_⟩
  · rw [inodeReadAt, hi]
    simp only [some_bind, malloc_eq, InodeDisk.readAt, hcode]
  · rw [hno, readLoop_small hsize] at hcode
    have hlength := congrArg List.length (Option.some.inj hcode)
    rwa [Memory.length_load, length_nil, eq_comm] at hlength

/-- **`inode_write_at`**, where writes are not denied.  A write of less than a sector is all
or nothing. -/
theorem inodeWriteAt_spec (hi : s.inode a = some i) (hd : OnDevice s.device i.data)
    (hallowed : i.denyWriteCnt = 0) (hbuffer : size ≤ buffer.length) (offset : Nat) :
    ∃ w, s.inodeWriteAt a buffer size offset =
        some ({ s with
          answers := s.answers.tail
          device := { s.device with
            bytes := s.device.bytes.store (i.data.at offset) (buffer.take w) } }, w) ∧
      w ≤ i.data.available size offset ∧
      (s.answers.headD true = true → w = i.data.available size offset) ∧
      (size < sectorSize → s.answers.headD true = false → w = 0) := by
  obtain ⟨w, hle, hall, hcode⟩ := writeLoop_spec hd (s.answers.headD true) offset
    (Int.self_le_toNat size) hbuffer
  refine ⟨w, ?_, hle, hall, fun hsize hno => ?_⟩
  · rw [inodeWriteAt, hi]
    simp only [some_bind, hallowed, ne_eq, not_true_eq_false, if_false, writeAllowed, malloc_eq,
      InodeDisk.writeAt, hcode]
  · rw [hno, writeLoop_small hsize] at hcode
    exact (Prod.mk.inj (Option.some.inj hcode)).2.symm

variable {f : Nat} {file : File}

section
variable (hf : s.file f = some file) (hi : s.inode file.inode = some i)
  (hd : OnDevice s.device i.data)
include hf hi hd

/-- **`bitmap_write`**, to a file that is as long as the bitmap. -/
theorem bitmapWrite_spec (hallowed : i.denyWriteCnt = 0)
    (hlength : i.data.length = byteCnt s.freeMap.bitCnt)
    (hcnt : s.freeMap.bitCnt + 31 < unsignedSize) :
    ∃ w, s.bitmapWrite f = some ({ s with
          answers := s.answers.tail
          device := { s.device with
            bytes := s.device.bytes.store (i.data.at 0) (s.freeMap.bytes.take w) } },
        decide (w = byteCnt s.freeMap.bitCnt)) ∧
      w ≤ byteCnt s.freeMap.bitCnt ∧
      (s.answers.headD true = true → w = byteCnt s.freeMap.bitCnt) := by
  have hbuffer : (byteCnt s.freeMap.bitCnt : Int) ≤ s.freeMap.bytes.length :=
    Int.ofNat_le.mpr (Bitmap.byteCnt_le_length hcnt)
  have havail := available_all hlength
  obtain ⟨w, hcode, hle, hall, -⟩ := inodeWriteAt_spec hi hd hallowed hbuffer 0
  rw [havail] at hle hall
  refine ⟨w, ?_, hle, hall⟩
  simp only [bitmapWrite, fileWriteAt, hf, some_bind, hcode]

/-- **`bitmap_read`**, of a file that is as long as the bitmap.  It reads some of it, and all
of it if there is memory. -/
theorem bitmapRead_spec (hlength : i.data.length = byteCnt s.freeMap.bitCnt)
    (hpos : 0 < s.freeMap.bitCnt) :
    ∃ r, (s.answers.headD true = true → r = byteCnt s.freeMap.bitCnt) ∧
      s.bitmapRead f =
        (s.freeMap.withBytes (s.device.bytes.load (i.data.at 0) r)).bind fun freeMap =>
          some ({ s with freeMap, answers := s.answers.tail },
            decide (r = byteCnt s.freeMap.bitCnt)) := by
  obtain ⟨r, hread, -, hall, -⟩ := inodeReadAt_spec hi hd (byteCnt s.freeMap.bitCnt : Nat) 0
  have havail := available_all hlength
  refine ⟨r, fun hok => (hall hok).trans havail, ?_⟩
  simp only [bitmapRead, if_pos hpos, fileReadAt, hf, Option.bind_eq_bind, Option.bind_some, hread,
    Memory.length_load]

end

end Io
end Fs

namespace Volume
variable {s : Fs} {files : List File} {nodes : Set Nat} {held : List Nat} {i : Inode} {n k : Nat}

section
variable (h : Volume s files nodes held)
include h

theorem denyWriteCnt (hi : i ∈ s.inodes) : i.denyWriteCnt = 0 := by
  have hnone : deniers files i.addr = 0 :=
    countP_eq_zero.mpr fun f hf => by simp [h.allowed f hf]
  rw [h.counted.denyWriteCnt i hi, hnone]
  rfl

theorem onDevice (hi : i ∈ s.inodes) : OnDevice s.device i.data := by
  obtain ⟨hnode, hdata⟩ := h.opened i hi
  exact hdata ▸ h.owned.onDevice i.sector hnode

theorem not_mapArea (hn : n ∈ nodes) : ¬MapArea s n := by
  rintro ⟨hsome, hhas⟩
  obtain ⟨f, hf⟩ := Option.isSome_iff_exists.mp hsome
  exact h.owned.not_has hn (h.map f hf).1 hhas

theorem not_mapArea_of_area (hn : n ∈ nodes) (h0 : n ≠ 0) (hk : Area s.device n k) :
    ¬MapArea s k := by
  rintro ⟨hsome, hhas⟩
  obtain ⟨f, hf⟩ := Option.isSome_iff_exists.mp hsome
  exact h.owned.apart n hn 0 (h.map f hf).1 h0 k hk (.inr hhas)

/-- The device changes, but not the inodes. -/
theorem withDevice {d : Device} {P : Nat → Prop} (hsame : Unchanged s.device d P)
    (hP : ∀ n ∈ nodes, P n) (answers : List Bool) :
    Volume { s with device := d, answers } files nodes held := by
  have hinode : ∀ n ∈ nodes, inodeAt d n = inodeAt s.device n := fun n hn =>
    hsame.inodeAt (hP n hn)
  refine ⟨h.counted, h.owned.unchanged hsame hP, fun i hi => ?_, h.allowed, h.few, fun f hf => ?_⟩
  · obtain ⟨hnode, hdata⟩ := h.opened i hi
    exact ⟨hnode, hdata.trans (hinode _ hnode).symm⟩
  · obtain ⟨hnode, hlength, hfile⟩ := h.map f hf
    refine ⟨hnode, ?_, hfile⟩
    rw [hinode 0 hnode, hsame.size]
    exact hlength

theorem withAnswers (answers : List Bool) :
    Volume { s with answers } files nodes held :=
  h.withDevice (Unchanged.refl s.device fun _ => True) (fun _ _ => trivial) answers

theorem withFreeMap {b : Bitmap} (hb : Owned s.device b nodes) :
    Volume { s with freeMap := b } files nodes held :=
  ⟨h.counted, hb, h.opened, h.allowed, h.few, h.map⟩

/-- Inodes that are not open are given up. -/
theorem shrink (nodes' : Set Nat) (hsub : nodes' ⊆ nodes)
    (hopen : ∀ i ∈ s.inodes, i.sector ∈ nodes') (hmap : s.freeMapFile.isSome = true → 0 ∈ nodes') :
    Volume s files nodes' held :=
  ⟨h.counted, h.owned.mono hsub, fun i hi => ⟨hopen i hi, (h.opened i hi).2⟩, h.allowed, h.few,
    fun f hf => ⟨hmap (by rw [hf]; rfl), (h.map f hf).2⟩⟩

end

end Volume

/-! ## The free map -/

section FreeMap
variable {s : Fs} {files : List File} {nodes : Set Nat} {held : List Nat} {f cnt sector : Nat}

/-- **`bitmap_write`** of the free map. -/
theorem Volume.bitmapWrite (h : Volume s files nodes held) (hf : s.freeMapFile = some f) :
    ∃ d ok, s.bitmapWrite f = some ({ s with device := d, answers := s.answers.tail }, ok) ∧
      Unchanged s.device d (¬MapArea s ·) ∧ (s.answers.headD true = true → ok = true) ∧
      (ok = true → Saved d s.freeMap) := by
  obtain ⟨hnode, hlength, file, i, hfile, hi, hsector⟩ := h.map f hf
  have hmem := mem_of_get hi
  have hdata : i.data = inodeAt s.device 0 := hsector ▸ (h.opened i hmem).2
  have hcnt := h.owned.bitCnt
  have hlt : s.freeMap.bitCnt + 31 < unsignedSize := hcnt ▸ h.owned.size_lt
  have hbytes := Bitmap.byteCnt_le_length hlt
  obtain ⟨w, hcode, hle, hall⟩ := Fs.bitmapWrite_spec hfile hi (h.onDevice hmem)
    (h.denyWriteCnt hmem) (by rw [hdata, hlength, hcnt]) hlt
  have hfits : ((0 + (s.freeMap.bytes.take w).length : Nat) : Int) ≤ (inodeAt s.device 0).length := by
    rw [hlength, length_take, ← hcnt]
    omega
  have hsame := unchanged_store (h.owned.onDevice 0 hnode) hfits
  rw [hdata] at hcode
  refine ⟨_, w = byteCnt s.freeMap.bitCnt, hcode, hsame.mono fun k hk hhas => hk ⟨?_, hhas⟩,
    fun hok => decide_eq_true (hall hok), fun hok => ?_⟩
  · rw [hf]
    rfl
  · have hw : w = byteCnt s.freeMap.bitCnt := of_decide_eq_true hok
    have hlen : (s.freeMap.bytes.take w).length = byteCnt s.freeMap.bitCnt := by
      rw [length_take, hw]
      omega
    refine ⟨s.freeMap, rfl, fun _ _ => rfl, ?_⟩
    rw [hsame.inodeAt (h.owned.self 0 hnode), ← hlen]
    rw [Memory.load_store, hlen, hw]

/-- **What `free_map_allocate` does.** -/
structure Allocated (s : Fs) (cnt : Nat) (r : Option Nat) (s' : Fs) : Prop where
  table : s'.toOpenTable = s.toOpenTable
  freeMapFile : s'.freeMapFile = s.freeMapFile
  answers : s.answers = [] → s'.answers = []
  device : Unchanged s.device s'.device (¬MapArea s ·)
  /-- Sectors that were free are taken. -/
  taken : ∀ start, r = some start → start + cnt ≤ s.freeMap.bitCnt ∧
    (∀ j, j < cnt → s.freeMap.bit (start + j) = false) ∧ s.freeMap.SetRange start cnt true s'.freeMap
  /-- Nothing is taken. -/
  failed : r = none → ∀ k, s'.freeMap.bit k = s.freeMap.bit k
  /-- It does not fail where there is room and memory. -/
  room : s.answers = [] →
    (∃ i, i + cnt ≤ s.freeMap.bitCnt ∧ ∀ j, j < cnt → s.freeMap.bit (i + j) = false) →
      r.isSome = true
  saved : s.answers = [] ∨ r.isSome = true → s.freeMapFile.isSome = true →
    Saved s.device s.freeMap → Saved s'.device s'.freeMap

theorem Volume.freeMapAllocate (h : Volume s files nodes held) (cnt : Nat) :
    ∃ s' r, s.freeMapAllocate cnt = some (s', r) ∧ Volume s' files nodes held ∧
      Allocated s cnt r s' := by
  obtain ⟨b, r, hscan, hr⟩ := s.freeMap.scanAndFlip_bits cnt
  rcases hr with ⟨rfl, rfl, hno⟩ | ⟨hne, hfits, hfree, hset⟩
  · refine ⟨s, none, ?_, h, rfl, rfl, id, Unchanged.refl _ _, (fun _ h => nomatch h), fun _ _ => rfl,
      fun _ hex => absurd hex hno, fun _ _ => id⟩
    rw [Fs.freeMapAllocate, hscan]
    simp only [some_bind, if_true]
  · -- the sectors of the inodes are still marked
    have hkept : ∀ k, s.freeMap.bit k = true → b.bit k = true := fun k hk => by
      rw [hset.bit_eq]
      split
      · rfl
      · exact hk
    have hb : Volume { s with freeMap := b } files nodes held := h.withFreeMap
      (h.owned.withFreeMap hset.bitCnt_eq fun n hn k hk => hkept k (h.owned.marked n hn k hk))
    cases hfile : s.freeMapFile with
    | none =>
      refine ⟨{ s with freeMap := b }, some r, ?_, hb, rfl, rfl, id, Unchanged.refl _ _, ?_, ?_, ?_,
        ?_⟩
      · rw [Fs.freeMapAllocate, hscan]
        simp only [some_bind, if_neg hne, hfile]
      · rintro _ ⟨⟩
        exact ⟨hfits, hfree, hset⟩
      · exact (nomatch ·)
      · exact fun _ _ => rfl
      · intro _ hsome
        rw [hfile] at hsome
        exact nomatch hsome
    | some f =>
      obtain ⟨d, ok, hwrite, hsame, hok, hsaved⟩ := hb.bitmapWrite hfile
      have hd : Volume { s with freeMap := b, device := d, answers := s.answers.tail } files nodes
          held := hb.withDevice hsame (fun n hn => hb.not_mapArea hn) s.answers.tail
      have hanswers : s.answers = [] → s.answers.tail = [] ∧ ok = true := fun hnil => by
        rw [hnil]
        exact ⟨rfl, hok (by rw [hnil]; rfl)⟩
      have hwrite' := hwrite
      simp only [hfile] at hwrite'
      cases ok with
      | true =>
        refine ⟨_, some r, ?_, hd, rfl, rfl, fun hnil => (hanswers hnil).1, hsame, ?_, ?_, ?_, ?_⟩
        · rw [Fs.freeMapAllocate, hscan]
          simp only [some_bind, if_neg hne, hfile, hwrite', if_true]
        · rintro _ ⟨⟩
          exact ⟨hfits, hfree, hset⟩
        · exact (nomatch ·)
        · exact fun _ _ => rfl
        · exact fun _ _ _ => hsaved rfl
      | false =>
        obtain ⟨b', hreset, hb'⟩ := Bitmap.setMultiple_spec (hset.bitCnt_eq ▸ hfits) false
        -- the sectors are free again, as they were
        have hback : ∀ k, b'.bit k = s.freeMap.bit k := fun k => by
          rw [hb'.bit_eq, hset.bit_eq]
          split
          · rename_i hk
            obtain ⟨j, rfl⟩ := Nat.exists_eq_add_of_le hk.1
            exact (hfree j (Nat.lt_of_add_lt_add_left hk.2)).symm
          · rfl
        refine ⟨_, none, ?_, hd.withFreeMap (hd.owned.withFreeMap hb'.bitCnt_eq fun n hn k hk => ?_),
          rfl, rfl, fun hnil => (hanswers hnil).1, hsame, (fun _ h => nomatch h), fun _ => hback,
          fun hnil => absurd (hanswers hnil).2 Bool.false_ne_true,
          fun h => h.elim (fun hnil => absurd (hanswers hnil).2 Bool.false_ne_true) (nomatch ·)⟩
        · rw [Fs.freeMapAllocate, hscan]
          simp only [some_bind, if_neg hne, hfile, hwrite', Bool.false_eq_true, if_false, hreset]
        · rw [hback]
          have hsame' : Area s.device n k := by
            rcases hk with rfl | hk
            · exact .inl rfl
            · refine .inr ?_
              rwa [hsame.inodeAt (hb.not_mapArea hn)] at hk
          exact h.owned.marked n hn k hsame'

/-- **`free_map_release`** of sectors that are marked and that no inode owns. -/
theorem Volume.freeMapRelease (h : Volume s files nodes held) (hfile : s.freeMapFile = some f)
    (hfits : sector + cnt ≤ s.freeMap.bitCnt)
    (hbits : ∀ j, j < cnt → s.freeMap.bit (sector + j) = true)
    (hfree : ∀ n ∈ nodes, ∀ k, Area s.device n k → ¬(sector ≤ k ∧ k < sector + cnt)) :
    ∃ s', s.freeMapRelease sector cnt = some s' ∧ Volume s' files nodes held ∧
      Fs.ReleasedRange s sector cnt s' ∧ Unchanged s.device s'.device (¬MapArea s ·) ∧
      (s.answers = [] → s'.answers = [] ∧ Saved s'.device s'.freeMap) := by
  obtain ⟨b, hset, hb⟩ := Bitmap.setMultiple_spec hfits false
  have hvolume : Volume { s with freeMap := b } files nodes held := by
    refine h.withFreeMap (h.owned.withFreeMap hb.bitCnt_eq fun n hn k hk => ?_)
    rw [hb.bit_eq, if_neg (hfree n hn k hk)]
    exact h.owned.marked n hn k hk
  obtain ⟨d, ok, hwrite, hsame, hok, hsaved⟩ := hvolume.bitmapWrite hfile
  refine ⟨_, ?_, hvolume.withDevice hsame (fun n hn => hvolume.not_mapArea hn) s.answers.tail,
    ⟨rfl, rfl, hbits, hb⟩, hsame, fun hnil => ?_⟩
  · simp only [hfile] at hwrite
    rw [Fs.freeMapRelease, Bitmap.all_of_bits hfits hbits]
    simp only [some_bind, assert_of, hset, hfile, hwrite]
  · have hhead : s.answers.headD true = true := by rw [hnil]; rfl
    exact ⟨by rw [hnil]; rfl, hsaved (hok hhead)⟩

end FreeMap

/-! ## Inodes -/

section Inodes
variable {s s' : Fs} {files : List File} {nodes : Set Nat} {held : List Nat} {n a : Nat}
  {length : Int} {i : Inode} {P : Nat → Prop}

theorem Saved.unchanged {d d' : Device} {b : Bitmap} (h : Saved d b) (hsame : Unchanged d d' P)
    (hdevice : OnDevice d (inodeAt d 0)) (hlength : (inodeAt d 0).length = byteCnt b.bitCnt)
    (h0 : P 0) (hP : ∀ k, (inodeAt d 0).Has k → P k) : Saved d' b := by
  obtain ⟨b', hcnt, hbits, hload⟩ := h
  refine ⟨b', hcnt, hbits, ?_⟩
  rw [hsame.inodeAt h0, hsame.load hdevice hP (by rw [hlength, hcnt]; omega)]
  exact hload

/-- What is written elsewhere leaves the free map on the device as it is. -/
theorem Volume.saved (h : Volume s files nodes held) (hfile : s.freeMapFile.isSome = true)
    {d : Device} (hsame : Unchanged s.device d P) (hP : ∀ k, Area s.device 0 k → P k)
    (hsaved : Saved s.device s.freeMap) : Saved d s.freeMap := by
  obtain ⟨f, hf⟩ := Option.isSome_iff_exists.mp hfile
  obtain ⟨hnode, hlength, -⟩ := h.map f hf
  exact hsaved.unchanged hsame (h.owned.onDevice 0 hnode) (by rw [hlength, h.owned.bitCnt])
    (hP 0 (.inl rfl)) fun k hk => hP k (.inr hk)

/-- The sectors of the free map stay where they are. -/
theorem Volume.mapArea_of_unchanged (h : Volume s files nodes held) {k : Nat}
    (hsame : Unchanged s.device s'.device P) (hP : ∀ n ∈ nodes, P n)
    (hfile : s'.freeMapFile = s.freeMapFile) (hk : MapArea s' k) : MapArea s k := by
  obtain ⟨hsome, hhas⟩ := hk
  rw [hfile] at hsome
  obtain ⟨f, hf⟩ := Option.isSome_iff_exists.mp hsome
  rw [hsame.inodeAt (hP 0 (h.map f hf).1)] at hhas
  exact ⟨hsome, hhas⟩

/-- The sectors hold all of the data. -/
theorem length_le_sectors (h0 : 0 ≤ length) (hlt : length < 2147483648) :
    length.toNat ≤ sectorSize * bytesToSectors length := by
  rcases Nat.eq_zero_or_pos length.toNat with h | h
  · omega
  · have hpos : ((length.toNat - 1 : Nat) : Int) < length := by omega
    have hlast := lt_bytesToSectors hpos hlt
    rw [sectorSize] at hlast ⊢
    omega

/-- **What `inode_create` makes**: an inode with data of the given length, all zeros, on
sectors that were free. -/
structure Created (s : Fs) (n : Nat) (length : Int) (s' : Fs) : Prop where
  device : Unchanged s.device s'.device fun k => ¬MapArea s k ∧ ¬Area s'.device n k
  length_eq : (inodeAt s'.device n).length = length
  zeros : s'.device.bytes.load ((inodeAt s'.device n).at 0) length.toNat =
    List.replicate length.toNat 0
  fresh : ∀ k, (inodeAt s'.device n).Has k → s.freeMap.bit k = false
  bits : ∀ k, s'.freeMap.bit k = true ↔ s.freeMap.bit k = true ∨ (inodeAt s'.device n).Has k

/-- **What `inode_create` does.** -/
structure InodeCreate (s : Fs) (files : List File) (nodes : Set Nat) (held : List Nat) (n : Nat)
    (length : Int) (ok : Bool) (s' : Fs) : Prop where
  table : s'.toOpenTable = s.toOpenTable
  freeMapFile : s'.freeMapFile = s.freeMapFile
  answers : s.answers = [] → s'.answers = []
  saved : s.answers = [] ∨ ok = true → s.freeMapFile.isSome = true →
    Saved s.device s.freeMap → Saved s'.device s'.freeMap
  room : s.answers = [] → (∃ j, j + bytesToSectors length ≤ s.freeMap.bitCnt ∧
    ∀ k, k < bytesToSectors length → s.freeMap.bit (j + k) = false) → ok = true
  created : ok = true → Volume s' files (insert n nodes) held ∧ Created s n length s'
  failed : ok = false → Volume s' files nodes held ∧ Reserved s' nodes n ∧
    Unchanged s.device s'.device (¬MapArea s ·) ∧ ∀ k, s'.freeMap.bit k = s.freeMap.bit k

/-- The sectors are written: the device afterwards. -/
theorem Volume.writeInode (h : Volume s files nodes held) (hn : Reserved s nodes n)
    (h0 : 0 ≤ length) (hlt : length < 2147483648) {start : Nat} {s₁ : Fs}
    (halloc : Allocated s (bytesToSectors length) (some start) s₁) :
    ∃ d d', s₁.device.blockWrite n (InodeDisk.bytes ⟨start, length, inodeMagic⟩) = some d ∧
      Fs.writeZeros d start (bytesToSectors length) = some d' ∧
      inodeAt d' n = ⟨start, length, inodeMagic⟩ ∧
      Unchanged s₁.device d' (fun k => k ≠ n ∧ ¬(inodeAt d' n).Has k) ∧
      d'.bytes.load (sectorSize * start) length.toNat = List.replicate length.toNat 0 := by
  obtain ⟨hfits, hfree, hset⟩ := halloc.taken start rfl
  have hsize : s₁.device.size = s.device.size := halloc.device.size
  have hcnt := h.owned.bitCnt
  have hsmall := h.owned.size_lt
  have hn₁ : n < s₁.device.size := hsize ▸ hn.lt
  obtain ⟨d, hwrite, hsame, hload⟩ := blockWrite_spec hn₁
    (InodeDisk.length_bytes ⟨start, length, inodeMagic⟩)
  have hfits' : start + bytesToSectors length ≤ d.size := by
    rw [hsame.size, hsize, ← hcnt]
    exact hfits
  obtain ⟨d', hzero, hsame', hload'⟩ := writeZeros_spec hfits' (by rw [hsame.size, hsize]; omega)
  -- the sector of the inode is marked, those of its data were free
  have hout : ¬(start ≤ n ∧ n < start + bytesToSectors length) := by
    rintro ⟨hle, hlt'⟩
    obtain ⟨j, rfl⟩ := Nat.exists_eq_add_of_le hle
    have hbit := hfree j (Nat.lt_of_add_lt_add_left hlt')
    rw [hn.marked] at hbit
    exact nomatch hbit
  have hinode : inodeAt d' n = ⟨start, length, inodeMagic⟩ := by
    rw [hsame'.inodeAt hout, inodeAt, hload]
    have hstart : start < unsignedSize := by omega
    have hlo : -2147483648 ≤ length := by omega
    have hmagic : inodeMagic < unsignedSize := by decide
    exact InodeDisk.ofBytes_bytes hstart hlo hlt hmagic
  refine ⟨d, d', hwrite, hzero, hinode, ?_, ?_⟩
  · rw [hinode]
    exact (hsame.mono fun k hk => hk.1).trans (hsame'.mono fun k hk => hk.2)
  · have htake := congrArg (List.take length.toNat) hload'
    rwa [Memory.take_load, Nat.min_eq_left (length_le_sectors h0 hlt), take_replicate,
      Nat.min_eq_left (length_le_sectors h0 hlt)] at htake

/-- `inode_create` behind its assertion: the inode in memory, the sectors, and the writing. -/
theorem Fs.inodeCreate_eq (s : Fs) (n : Nat) {length : Int} (h0 : 0 ≤ length) :
    s.inodeCreate n length = (if s.answers.headD true then do
      match ← Fs.freeMapAllocate { s with answers := s.answers.tail } (bytesToSectors length) with
      | (s, none) => some (s, false)
      | (s, some start) =>
        let device ← s.device.blockWrite n (InodeDisk.bytes ⟨start, length, inodeMagic⟩)
        some ({ s with device := ← Fs.writeZeros device start (bytesToSectors length) }, true)
      else some ({ s with answers := s.answers.tail }, false)) := by
  rw [Fs.inodeCreate, assert_of h0, Fs.malloc_eq]
  rfl

/-- **`inode_create`** in a sector that is reserved for it. -/
theorem Volume.inodeCreate (h : Volume s files nodes held) (hn : Reserved s nodes n)
    (h0 : 0 ≤ length) (hlt : length < 2147483648) :
    ∃ s' ok, s.inodeCreate n length = some (s', ok) ∧
      InodeCreate s files nodes held n length ok s' := by
  have hcode := Fs.inodeCreate_eq s n h0
  have hm : Volume { s with answers := s.answers.tail } files nodes held :=
    h.withAnswers _
  have hnil : s.answers = [] → s.answers.tail = [] := fun hnil => by rw [hnil]; rfl
  cases hhead : s.answers.headD true with
  | false =>
    refine ⟨{ s with answers := s.answers.tail }, false, by rw [hcode, hhead]; rfl, rfl, rfl, hnil,
      fun _ _ => id, fun hnil => ?_,
      Bool.noConfusion, fun _ => ⟨hm, ⟨hn.lt, hn.marked, hn.fresh⟩, Unchanged.refl _ _, fun _ => rfl⟩⟩
    rw [hnil] at hhead
    cases hhead
  | true =>
    obtain ⟨s₁, r, hallocate, h₁, halloc⟩ := hm.freeMapAllocate (bytesToSectors length)
    rw [hcode, hhead, if_pos rfl, hallocate]
    cases r with
    | none =>
      have hsame := halloc.failed rfl
      refine ⟨s₁, false, rfl, halloc.table, halloc.freeMapFile, fun h => halloc.answers (hnil h),
        fun h => halloc.saved (h.imp hnil Bool.noConfusion),
        fun h hroom => absurd (halloc.room (hnil h) hroom) (by decide),
        Bool.noConfusion, fun _ => ⟨h₁, ⟨halloc.device.size ▸ hn.lt, (hsame n).trans hn.marked, ?_⟩,
          halloc.device, hsame⟩⟩
      intro m hm' hk
      refine hn.fresh m hm' ?_
      rwa [Area, halloc.device.inodeAt (h.not_mapArea hm')] at hk
    | some start =>
      obtain ⟨hfits, hfree, hset⟩ := halloc.taken start rfl
      obtain ⟨d, d', hwrite, hzero, hinode, hsame, hzeros⟩ := hm.writeInode
        ⟨hn.lt, hn.marked, hn.fresh⟩ h0 hlt halloc
      have hhas : ∀ k, (inodeAt d' n).Has k ↔ start ≤ k ∧ k < start + bytesToSectors length :=
        fun k => by rw [hinode]; rfl
      have hwas : ∀ k, (inodeAt d' n).Has k → s.freeMap.bit k = false := by
        intro k hk
        obtain ⟨hle, hlt'⟩ := (hhas k).mp hk
        obtain ⟨j, rfl⟩ := Nat.exists_eq_add_of_le hle
        exact hfree j (Nat.lt_of_add_lt_add_left hlt')
      -- nothing that an inode owns has been written
      have hout : ∀ m ∈ nodes, ∀ k, Area s.device m k → k ≠ n ∧ ¬(inodeAt d' n).Has k := by
        intro m hm' k hk
        refine ⟨fun hkn => hn.fresh m hm' (hkn ▸ hk), fun hhas' => ?_⟩
        have hmarked := h.owned.marked m hm' k hk
        rw [hwas k hhas'] at hmarked
        cases hmarked
      have harea : ∀ m ∈ nodes, ∀ k, Area d' m k → Area s.device m k := by
        intro m hm' k hk
        rwa [Area, hsame.inodeAt (hout m hm' m (.inl rfl)),
          halloc.device.inodeAt (h.not_mapArea hm')] at hk
      have hvolume := h₁.withDevice hsame (fun m hm' => hout m hm' m (.inl rfl)) s₁.answers
      have howned : Owned d' s₁.freeMap (insert n nodes) := by
        have hsize : d'.size = s.device.size := hsame.size.trans halloc.device.size
        refine hvolume.owned.insert (hn.lt.trans_eq hsize.symm) ?_ ?_ ?_ ?_
        · rw [hinode]
          exact ⟨h0, hlt, hsize ▸ h.owned.bitCnt ▸ hfits,
            hsize.trans_lt (Nat.lt_of_add_right_lt h.owned.size_lt)⟩
        · rintro k (rfl | hk)
          · rw [hset.bit_eq]
            split
            · rfl
            · exact hn.marked
          · rw [hset.bit_eq, if_pos ((hhas k).mp hk)]
        · intro hself
          have hmarked := hn.marked
          rw [hwas n hself] at hmarked
          cases hmarked
        · rintro m hm' k (rfl | hk) hk'
          · exact hn.fresh m hm' (harea m hm' k hk')
          · exact (hout m hm' k (harea m hm' k hk')).2 hk
      refine ⟨{ s₁ with device := d' }, true, by simp only [some_bind, hwrite,
        hzero], halloc.table, halloc.freeMapFile, fun h => halloc.answers (hnil h),
        fun _ hsome hsaved => ?_, fun _ _ => rfl, fun _ => ⟨⟨hvolume.counted, howned,
          fun j hj => ⟨.inr (hvolume.opened j hj).1, (hvolume.opened j hj).2⟩, hvolume.allowed,
          hvolume.few, fun f hf => ⟨.inr (hvolume.map f hf).1, (hvolume.map f hf).2⟩⟩, ?_⟩,
        Bool.noConfusion⟩
      · obtain ⟨f, hf⟩ := Option.isSome_iff_exists.mp hsome
        obtain ⟨hnode, hlength, -⟩ := h₁.map f (halloc.freeMapFile.trans hf)
        refine (halloc.saved (.inr rfl) hsome hsaved).unchanged hsame (h₁.owned.onDevice 0 hnode)
          (by rw [hlength, h₁.owned.bitCnt]) (hout 0 hnode 0 (.inl rfl)) fun k hk => ?_
        refine hout 0 hnode k (.inr ?_)
        rwa [halloc.device.inodeAt (h.not_mapArea hnode)] at hk
      · refine ⟨⟨hsame.size.trans halloc.device.size, fun x hx => ?_⟩, ?_, ?_, hwas, fun k => ?_⟩
        · obtain ⟨hmap, harea'⟩ := hx
          obtain ⟨hne, hdata⟩ := not_or.mp harea'
          exact (hsame.bytes x ⟨hne, hdata⟩).trans (halloc.device.bytes x hmap)
        · rw [hinode]
        · rw [hinode]
          exact hzeros
        · rw [hset.bit_eq, hhas]
          split <;> rename_i hk <;> simp [hk]

/-- **What `inode_open` does.** -/
structure Opened (s : Fs) (n : Nat) (r : Option Nat) (s' : Fs) : Prop where
  files : s'.files = s.files
  device : s'.device = s.device
  freeMap : s'.freeMap = s.freeMap
  freeMapFile : s'.freeMapFile = s.freeMapFile
  answers : s.answers = [] → s'.answers = []
  inode : ∀ a, r = some a → ∃ i, s'.inode a = some i ∧ i.sector = n
  kept : ∀ b i, s.inode b = some i → ∃ i', s'.inode b = some i' ∧ Fs.core i' = Fs.core i
  removed : ∀ i ∈ s'.inodes, i.removed = true → ∃ j ∈ s.inodes, j.sector = i.sector ∧
    j.removed = true
  success : s.answers = [] → r.isSome = true

section
variable (h : Volume s files nodes held)
include h

/-- An inode in memory changes, but not what it says about the device. -/
theorem Volume.setInode (hi : s.inode a = some i) (g : Inode → Inode)
    (haddr : ∀ i, (g i).addr = i.addr) (hsector : ∀ i, (g i).sector = i.sector)
    (hdata : ∀ i, (g i).data = i.data) {held' : List Nat}
    (hcounted : Counted ⟨Objects.modify Inode.addr s.inodes a g, files, s.next⟩ held') :
    Volume (s.setInode a g) files nodes held' := by
  refine ⟨hcounted, h.owned, fun j hj => ?_, h.allowed, h.few, fun f hf => ?_⟩
  · rcases (mem_modify h.counted.addrs hi).mp hj with rfl | ⟨hj, -⟩
    · rw [hsector, hdata]
      exact h.opened i (mem_of_get hi)
    · exact h.opened j hj
  · obtain ⟨hnode, hlength, file, j, hfile, hj, h0⟩ := h.map f hf
    by_cases hb : file.inode = a
    · exact ⟨hnode, hlength, file, g j, hfile, hb ▸ Fs.inode_setInode g haddr hj,
        (hsector j).trans h0⟩
    · exact ⟨hnode, hlength, file, j, hfile, (Fs.inode_setInode_of_ne g haddr hb).trans hj, h0⟩

/-- The inode is open already. -/
theorem Volume.inodeReopen (hi : s.inode a = some i) :
    ∃ s', s.inodeReopen a = some s' ∧ Volume s' files nodes (a :: held) ∧
      Opened s i.sector (some a) s' := by
  let g : Inode → Inode := fun i => { i with openCnt := wrap (i.openCnt + 1) }
  refine ⟨s.setInode a g, by rw [Fs.inodeReopen, hi]; rfl, h.setInode hi g (fun _ => rfl)
    (fun _ => rfl) (fun _ => rfl) (h.counted.reopen hi), rfl, rfl, rfl, rfl, id, ?_, fun b j hj => ?_,
    fun j hj hremoved => ?_, fun _ => rfl⟩
  · rintro _ ⟨⟩
    exact ⟨g i, Fs.inode_setInode g (fun _ => rfl) hi, rfl⟩
  · by_cases hb : b = a
    · subst hb
      exact ⟨g j, Fs.inode_setInode g (fun _ => rfl) hj, rfl⟩
    · exact ⟨j, (Fs.inode_setInode_of_ne g (fun _ => rfl) hb).trans hj, rfl⟩
  · rcases (mem_modify h.counted.addrs hi).mp hj with rfl | ⟨hj, -⟩
    · exact ⟨i, mem_of_get hi, rfl, hremoved⟩
    · exact ⟨j, hj, rfl, hremoved⟩

/-- **`inode_open`** of an inode of the volume. -/
theorem Volume.inodeOpen (hn : n ∈ nodes) :
    ∃ s' r, s.inodeOpen n = some (s', r) ∧ Volume s' files nodes (r.toList ++ held) ∧
      Opened s n r s' := by
  rw [Fs.inodeOpen]
  cases hfind : s.inodes.find? fun i => i.sector = n with
  | some i =>
    have hmem := mem_of_find?_eq_some hfind
    have hsector : i.sector = n := by simpa using find?_some hfind
    obtain ⟨s', hcode, hvolume, hopened⟩ := h.inodeReopen (h.counted.addrs.get_of_mem hmem)
    exact ⟨s', some i.addr, by simp only [hcode, some_bind], hvolume,
      hsector ▸ hopened⟩
  | none =>
    have hfree : ∀ i ∈ s.inodes, i.sector ≠ n := fun i hi => by
      simpa using find?_eq_none.mp hfind i hi
    have hnil : s.answers = [] → s.answers.tail = [] := fun hnil => by rw [hnil]; rfl
    have hm : Volume { s with answers := s.answers.tail } files nodes held :=
      h.withAnswers _
    simp only [Fs.malloc_eq]
    cases hhead : s.answers.headD true with
    | false =>
      refine ⟨{ s with answers := s.answers.tail }, none, rfl, hm, rfl, rfl, rfl, rfl, hnil,
        fun a h => absurd h (Option.some_ne_none a).symm, fun b j hj => ⟨j, hj, rfl⟩,
        fun j hj hremoved => ⟨j, hj, rfl, hremoved⟩,
        fun hnil => ?_⟩
      rw [hnil] at hhead
      cases hhead
    | true =>
      have hread : s.device.blockRead n =
          some (s.device.bytes.load (sectorSize * n) sectorSize) := by
        rw [Device.blockRead, assert_of (h.owned.lt n hn)]
        rfl
      let new : Inode := ⟨s.next, n, 1, false, 0, inodeAt s.device n⟩
      have hkept : ∀ b j, s.inode b = some j →
          Objects.get Inode.addr (new :: s.inodes) b = some j := by
        intro b j hj
        have hlt := h.counted.inode_lt j (mem_of_get hj)
        rw [key_of_get hj] at hlt
        refine (Objects.get_cons_of_ne ?_).trans hj
        exact Nat.ne_of_gt hlt
      refine ⟨{ s with
        inodes := new :: s.inodes
        next := s.next + 1
        answers := s.answers.tail }, some s.next, ?_, ⟨h.counted.push hfree _, h.owned, ?_, h.allowed,
        h.few, fun f hf => ?_⟩, rfl, rfl, rfl, rfl, hnil, ?_, fun b j hj => ⟨j, hkept b j hj, rfl⟩, ?_,
        fun _ => rfl⟩
      · simp only [if_true, hread, some_bind]
        rfl
      · exact forall_mem_cons.mpr ⟨⟨hn, rfl⟩, h.opened⟩
      · obtain ⟨hnode, hlength, file, j, hfile, hj, hsector⟩ := h.map f hf
        exact ⟨hnode, hlength, file, j, hfile, hkept _ j hj, hsector⟩
      · rintro _ ⟨⟩
        exact ⟨new, Objects.get_cons_self _ _, rfl⟩
      · intro j hj hremoved
        rcases mem_cons.mp hj with rfl | hj
        · cases hremoved
        · exact ⟨j, hj, rfl, hremoved⟩

end

/-- **What `inode_close` does.**  The inode may be freed, and if it has been removed, what it
owns. -/
structure Closed (s : Fs) (nodes : Set Nat) (held : List Nat) (a : Nat) (i : Inode) (s' : Fs)
    (nodes' : Set Nat) (held' : List Nat) : Prop where
  files : s'.files = s.files
  next : s'.next = s.next
  freeMapFile : s'.freeMapFile = s.freeMapFile
  answers : s.answers = [] → s'.answers = []
  device : Unchanged s.device s'.device (¬MapArea s ·)
  saved : s.answers = [] → s.freeMapFile.isSome = true → Saved s.device s.freeMap →
    Saved s'.device s'.freeMap
  sub : nodes' ⊆ nodes
  lost : ∀ n ∈ nodes, n ∉ nodes' → n = i.sector ∧ i.removed = true
  inodes : ∀ j ∈ s'.inodes, ∃ j' ∈ s.inodes, Fs.core j' = Fs.core j
  kept : ∀ b j, b ≠ a → s.inode b = some j → s'.inode b = some j
  held : held' = held.erase a ∨ held' = held.filter (· ≠ a)
  same : i.removed = false → s'.freeMap = s.freeMap ∧ s'.device = s.device

/-- The last opener of a removed inode has closed it: its sectors are released. -/
theorem Volume.releaseInode (h : Volume s files nodes held) {f : Nat} (hfile : s.freeMapFile = some f)
    (hn : n ∈ nodes) (h0 : n ≠ 0) (hopen : ∀ j ∈ s.inodes, j.sector ≠ n) :
    ∃ s₁ s', s.freeMapRelease n 1 = some s₁ ∧
      s₁.freeMapRelease (inodeAt s.device n).start (bytesToSectors (inodeAt s.device n).length)
        = some s' ∧
      Volume s' files (nodes \ {n}) held ∧ s'.toOpenTable = s.toOpenTable ∧
      s'.freeMapFile = s.freeMapFile ∧ Unchanged s.device s'.device (¬MapArea s ·) ∧
      (s.answers = [] → s'.answers = [] ∧ Saved s'.device s'.freeMap) := by
  have hnode := (h.map f hfile).1
  have hsmall := h.shrink (nodes \ {n}) (fun _ hn' => hn'.1)
    (fun j hj => ⟨(h.opened j hj).1, hopen j hj⟩) fun _ => ⟨hnode, Ne.symm h0⟩
  have hdevice := h.owned.onDevice n hn
  have hcnt := h.owned.bitCnt
  have hapart : ∀ m ∈ nodes \ {n}, ∀ k, Area s.device m k → ¬Area s.device n k := fun m hm k hk =>
    h.owned.apart m hm.1 n hn hm.2 k hk
  have hfits : n + 1 ≤ s.freeMap.bitCnt := hcnt ▸ h.owned.lt n hn
  have hbits : ∀ j, j < 1 → s.freeMap.bit (n + j) = true := fun j hj => by
    obtain rfl : j = 0 := by omega
    exact h.owned.marked n hn n (.inl rfl)
  obtain ⟨s₁, hcode₁, h₁, hrel₁, hsame₁, hnil₁⟩ := hsmall.freeMapRelease hfile hfits hbits
    fun m hm k hk hrange => hapart m hm k hk (.inl (by omega))
  have hfile₁ : s₁.freeMapFile = some f := hrel₁.freeMapFile.trans hfile
  have hcnt₁ : s₁.freeMap.bitCnt = s.freeMap.bitCnt := hrel₁.freeMap.bitCnt_eq
  have hbits₁ : ∀ j, j < bytesToSectors (inodeAt s.device n).length →
      s₁.freeMap.bit ((inodeAt s.device n).start + j) = true := by
    intro j hj
    have hhas : (inodeAt s.device n).Has ((inodeAt s.device n).start + j) :=
      ⟨Nat.le_add_right _ _, Nat.add_lt_add_left hj _⟩
    rw [hrel₁.freeMap.bit_eq, if_neg]
    · exact h.owned.marked n hn _ (.inr hhas)
    · intro hrange
      have heq : (inodeAt s.device n).start + j = n := by omega
      rw [heq] at hhas
      exact h.owned.self n hn hhas
  obtain ⟨s', hcode', h', hrel', hsame', hnil'⟩ := h₁.freeMapRelease hfile₁
    (by rw [hcnt₁, hcnt]; exact hdevice.inside) hbits₁ (fun m hm k hk hrange => by
      rw [Area, hsame₁.inodeAt (h.not_mapArea hm.1)] at hk
      exact hapart m hm k hk (.inr hrange))
  have hmap : ∀ k, ¬MapArea s k → ¬MapArea s₁ k := by
    rintro k hk ⟨-, hhas⟩
    rw [hsame₁.inodeAt (h.not_mapArea hnode)] at hhas
    exact hk ⟨by rw [hfile]; rfl, hhas⟩
  exact ⟨s₁, s', hcode₁, hcode', h', hrel'.table.trans hrel₁.table,
    hrel'.freeMapFile.trans hrel₁.freeMapFile, hsame₁.trans (hsame'.mono hmap),
    fun hnil => hnil' (hnil₁ hnil).1⟩

/-- **`inode_close`.**  If the count comes down to 0, no file has the inode open. -/
theorem Volume.inodeClose (h : Volume s files nodes held) (ha : a ∈ held) (hi : s.inode a = some i)
    (hlast : wrap ((users files held a : Int) - 1) = 0 → ∀ f ∈ files, f.inode ≠ a)
    (h0 : s.freeMapFile.isSome = true → i.sector ≠ 0)
    (hremoved : i.removed = true → s.freeMapFile.isSome = true) :
    ∃ s' nodes' held', s.inodeClose a = some s' ∧ Volume s' files nodes' held' ∧
      Closed s nodes held a i s' nodes' held' := by
  have hmem := mem_of_get hi
  have hia : i.addr = a := key_of_get hi
  obtain ⟨hnode, hdata⟩ := h.opened i hmem
  have hcnt : wrap (i.openCnt - 1) = wrap ((users files held a : Int) - 1) := by
    have hopenCnt : i.openCnt = wrap (users files held a) := hia ▸ h.counted.openCnt i hmem
    rw [Int.sub_eq_add_neg, hopenCnt, wrap_wrap_add]
    rfl
  generalize hleft : wrap ((users files held a : Int) - 1) = left at *
  have hcode : s.inodeClose a = if left = 0 then s.freeInode i
      else some (s.setInode a fun i => { i with openCnt := left }) := by
    simp only [Fs.inodeClose, hi, some_bind, hcnt]
  by_cases hzero : left = 0
  · -- the inode is freed
    have hfree : Volume { s with inodes := Objects.release Inode.addr s.inodes a } files nodes
        (held.filter (· ≠ a)) := by
      refine ⟨h.counted.free (hlast hzero), h.owned,
        fun j hj => h.opened j (mem_release.mp hj).1, h.allowed, h.few, fun f hf => ?_⟩
      obtain ⟨hzeroNode, hlength, file, j, hfile, hj, hsector⟩ := h.map f hf
      refine ⟨hzeroNode, hlength, file, j, hfile, (Objects.get_release_of_ne ?_).trans hj, hsector⟩
      rintro rfl
      obtain rfl : i = j := Option.some.inj (hi.symm.trans hj)
      exact h0 (by rw [hf]; rfl) hsector
    have hinodes : ∀ j ∈ Objects.release Inode.addr s.inodes a, ∃ j' ∈ s.inodes,
        Fs.core j' = Fs.core j := fun j hj => ⟨j, (mem_release.mp hj).1, rfl⟩
    have hkept : ∀ b j, b ≠ a → s.inode b = some j →
        Objects.get Inode.addr (Objects.release Inode.addr s.inodes a) b = some j := fun b j hb hj =>
      (Objects.get_release_of_ne hb).trans hj
    rw [hcode, if_pos hzero, Fs.freeInode, hia]
    cases hrem : i.removed with
    | false =>
      exact ⟨_, nodes, _, rfl, hfree, rfl, rfl, rfl, id, Unchanged.refl _ _, fun _ _ => id,
        fun _ => id, fun n hn hn' => absurd hn hn', hinodes, hkept, .inr rfl, fun _ => ⟨rfl, rfl⟩⟩
    | true =>
      obtain ⟨f, hf⟩ := Option.isSome_iff_exists.mp (hremoved hrem)
      have hopen : ∀ j ∈ Objects.release Inode.addr s.inodes a, j.sector ≠ i.sector := by
        intro j hj hji
        obtain ⟨hj, hja⟩ := mem_release.mp hj
        exact hja ((h.counted.sectors.eq_of_key hj hmem hji) ▸ hia)
      obtain ⟨s₁, s', hcode₁, hcode', h', htable, hfile', hsame, hnil⟩ :=
        hfree.releaseInode hf hnode (h0 (hremoved hrem)) hopen
      refine ⟨s', nodes \ {i.sector}, held.filter (· ≠ a), ?_, h', by rw [htable], by rw [htable],
        hfile', fun hn => (hnil hn).1, hsame, fun hn _ _ => (hnil hn).2, fun _ hn => hn.1,
        fun n hn hn' => ⟨?_, hrem⟩, by rw [htable]; exact hinodes, ?_, .inr rfl,
        fun hkeep => absurd (hrem.symm.trans hkeep) (by decide)⟩
      · simp only [if_true, hcode₁, some_bind, hdata]
        exact hcode'
      · by_contra hne
        exact hn' ⟨hn, hne⟩
      · intro b j hb hj
        rw [Fs.inode, htable]
        exact hkept b j hb hj
  · -- there are more handles
    have hmore : 1 < users files held a := by
      have hpos : 0 < users files held a := (h.counted.open_iff a).mpr ⟨i, hmem, hia⟩
      by_contra hle
      have heq : users files held a = 1 := by omega
      rw [heq] at hleft
      exact hzero hleft.symm
    have hcounted := h.counted.close hi ha hmore
    rw [hcnt] at hcounted
    refine ⟨_, nodes, held.erase a, by rw [hcode, if_neg hzero], h.setInode hi
      (fun i => { i with openCnt := left }) (fun _ => rfl) (fun _ => rfl) (fun _ => rfl) hcounted,
      rfl, rfl, rfl, id, Unchanged.refl _ _, fun _ _ => id, fun _ => id,
      fun n hn hn' => absurd hn hn', fun j hj => ?_, fun b j hb hj => ?_, .inl rfl,
      fun _ => ⟨rfl, rfl⟩⟩
    · rcases (mem_modify h.counted.addrs hi).mp hj with rfl | ⟨hj, -⟩
      · exact ⟨i, hmem, rfl⟩
      · exact ⟨j, hj, rfl⟩
    · exact (Fs.inode_setInode_of_ne (fun i => { i with openCnt := left }) (fun _ => rfl) hb).trans hj

/-- An address stays that of the same sector. -/
theorem Fs.sector_of_core {b : Nat} {j j' : Inode}
    (hkept : ∃ j₂, s'.inode b = some j₂ ∧ Fs.core j₂ = Fs.core j) (hj' : s'.inode b = some j') :
    j'.sector = j.sector := by
  obtain ⟨j₂, hj₂, hcore⟩ := hkept
  simp only [Fs.core, Prod.mk.injEq] at hcore
  rw [Option.some.inj (hj'.symm.trans hj₂), hcore.2.1]

theorem Opened.sector_eq {r : Option Nat} {b : Nat} {j j' : Inode} (h : Opened s n r s')
    (hj : s.inode b = some j) (hj' : s'.inode b = some j') : j'.sector = j.sector :=
  Fs.sector_of_core (h.kept b j hj) hj'

section Closed
variable {nodes' : Set Nat} {held' : List Nat}

section
variable (h : Closed s nodes held a i s' nodes' held')
include h

theorem Closed.sector_eq {b : Nat} {j j' : Inode} (hv : Volume s files nodes held)
    (hj : s.inode b = some j) (hj' : s'.inode b = some j') :
    j'.sector = j.sector := by
  obtain ⟨j₂, hj₂, hcore⟩ := h.inodes j' (mem_of_get hj')
  simp only [Fs.core, Prod.mk.injEq] at hcore
  have hget : s.inode b = some j₂ := by
    have hb : j₂.addr = b := hcore.1.trans (key_of_get hj')
    exact hb ▸ hv.counted.addrs.get_of_mem hj₂
  rw [← hcore.2.1, Option.some.inj (hget.symm.trans hj)]

theorem Closed.removed {j : Inode} (hj : j ∈ s'.inodes) (hrem : j.removed = true) :
    ∃ j' ∈ s.inodes, j'.sector = j.sector ∧ j'.removed = true := by
  obtain ⟨j', hj', hcore⟩ := h.inodes j hj
  simp only [Fs.core, Prod.mk.injEq] at hcore
  exact ⟨j', hj', hcore.2.1, hcore.2.2.1.trans hrem⟩

theorem Closed.held_eq (hnodup : held.Nodup) : held' = held.erase a := by
  rcases h.held with heq | heq
  · exact heq
  · rw [heq, hnodup.erase_eq_filter]
    exact filter_congr fun b _ => by by_cases hb : b = a <;> simp [hb]

end

/-- What is closed is given back. -/
theorem Closed.held_cons {held' : List Nat} (h : Closed s nodes (a :: held) a i s' nodes' held') :
    held' = held ∨ held' = held.filter (· ≠ a) := by
  rcases h.held with heq | heq
  · exact .inl (heq.trans (erase_cons_head a held))
  · refine .inr (heq.trans ?_)
    rw [filter_cons_of_neg (by simp)]

/-- Only an inode that has been removed takes its sectors with it. -/
theorem Closed.nodes_eq (h : Closed s nodes held a i s' nodes' held') (hkeep : i.removed = false) :
    nodes' = nodes := by
  refine Set.Subset.antisymm h.sub fun x hx => ?_
  by_contra hlost
  exact nomatch (h.lost x hx hlost).2.symm.trans hkeep

end Closed

/-- **`inode_remove`.** -/
theorem Volume.inodeRemove (h : Volume s files nodes held) (hi : s.inode a = some i) :
    s.inodeRemove a = some (s.setInode a fun i => { i with removed := true }) ∧
      Volume (s.setInode a fun i => { i with removed := true }) files nodes held := by
  refine ⟨by rw [Fs.inodeRemove, hi]; rfl, ?_⟩
  exact h.setInode hi (fun i => { i with removed := true }) (fun _ => rfl) (fun _ => rfl)
    (fun _ => rfl) (h.counted.remove hi)

end Inodes

/-! ## Files -/

section Files
variable {s : Fs} {nodes : Set Nat} {held : List Nat} {a f : Nat} {i : Inode} {file : File}

/-- A file for an inode that is held. -/
def Fs.pushFile (s : Fs) (a : Nat) : Fs :=
  { s with
    files := ⟨s.next, a, 0, false⟩ :: s.files
    next := s.next + 1
    answers := s.answers.tail }

theorem Fs.fileOpen_eq (s : Fs) (a : Nat) :
    s.fileOpen (some a) = if s.answers.headD true = true ∧ s.files.length < maxFiles then
      some (s.pushFile a, some s.next)
    else (Fs.inodeClose { s with answers := s.answers.tail } a).bind fun s => some (s, none) := by
  simp only [Fs.fileOpen, Fs.malloc_eq, Fs.pushFile]
  rfl

theorem Volume.file_lt (h : Volume s s.files nodes held) (hf : s.file f = some file) :
    f < s.next := by
  have hlt := h.counted.file_lt file (mem_of_get hf)
  rwa [key_of_get hf] at hlt

/-- **`file_open`** where there is memory. -/
theorem Volume.pushFile (h : Volume s s.files nodes held) (ha : a ∈ held)
    (hroom : s.files.length < maxFiles) :
    Volume (s.pushFile a) (s.pushFile a).files nodes (held.erase a) := by
  refine ⟨h.counted.openFile ha, h.owned, h.opened, forall_mem_cons.mpr ⟨rfl, h.allowed⟩, hroom,
    fun f hf => ?_⟩
  obtain ⟨hnode, hlength, file, i, hfile, hi, hsector⟩ := h.map f hf
  have hne : s.next ≠ f := Nat.ne_of_gt (h.file_lt hfile)
  have hget : (s.pushFile a).file f = s.file f := Objects.get_cons_of_ne hne
  exact ⟨hnode, hlength, file, i, hget.trans hfile, hi, hsector⟩

/-- The position of a file changes. -/
theorem Volume.setPos (h : Volume s s.files nodes held) (f : Nat) (g : File → Nat) :
    Volume (s.setFile f fun file => { file with pos := g file })
      (s.setFile f fun file => { file with pos := g file }).files nodes held := by
  let u : File → File := fun file => { file with pos := g file }
  refine ⟨h.counted.setPos f g, h.owned, h.opened, Objects.forall_modify (fun _ => Iff.rfl) h.allowed,
    ?_, fun f' hf' => ?_⟩
  · change (Objects.modify File.addr s.files f u).length ≤ maxFiles
    rw [Objects.modify, length_map]
    exact h.few
  · obtain ⟨hnode, hlength, file, i, hfile, hi, hsector⟩ := h.map f' hf'
    have hget : Objects.get File.addr (Objects.modify File.addr s.files f u) f' =
        (s.file f').map fun x => if f' = f then u x else x :=
      Objects.get_modify (fun _ => rfl : ∀ x, (u x).addr = x.addr) s.files f f'
    rw [hfile, Option.map_some] at hget
    refine ⟨hnode, hlength, _, i, hget, ?_, hsector⟩
    split <;> exact hi

end Files
end Pintos.Filesys
