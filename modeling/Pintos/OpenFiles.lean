import Pintos.BitmapFile
import Pintos.Objects

/-!
# Open inodes and files

`filesys/inode.c`, `filesys/file.c` and `filesys/free-map.c` over a state: the device, the
free map, and the `struct inode`s and `struct file`s that are allocated.  A pointer is the
address of such an object, and no address is used twice, so that a pointer to an object
that has been freed points to nothing; following it is a failure, `none`, as are a failed
assertion and `PANIC`.  Memory can run out: the state has the answers that the calls of
`malloc` get.

Several handles can be open on an inode: files, and pointers that a caller holds on to
(`held`).  **The counts in the inodes are the numbers of these handles** (`Counted`): this
is kept by everything that opens or closes one, and only the size of an `int` limits it.
-/

namespace Pintos.Filesys
open List
open Objects (Distinct mem_of_get key_of_get mem_release countP_modify_of_keep)

/-! ## The state -/

/-- What the result of `int` arithmetic becomes. -/
def wrap (n : Int) : Int :=
  toOff (ofOff n)

/-- `struct inode`, at `addr`. -/
structure Inode where
  addr : Nat
  sector : Nat
  openCnt : Int
  removed : Bool
  denyWriteCnt : Int
  data : InodeDisk
  deriving DecidableEq

/-- `struct file`, at `addr`. -/
structure File where
  addr : Nat
  inode : Nat
  pos : Nat
  denyWrite : Bool
  deriving DecidableEq

/-- The inodes in `open_inodes`, the files, and the next address. -/
structure OpenTable where
  inodes : List Inode
  files : List File
  next : Nat

/-- The state of the file system.  `answers` says for the coming calls of `malloc`, one
after the other, whether there is memory; where it ends, there is. -/
structure Fs extends OpenTable where
  device : Device
  freeMap : Bitmap
  freeMapFile : Option Nat
  answers : List Bool

/-- No more files than this fit into the address space. -/
def maxFiles : Nat :=
  unsignedSize / 12

namespace Fs

/-! ## The code -/

/-- A call of `malloc`. -/
def malloc (s : Fs) : Fs × Bool :=
  match s.answers with
  | [] => (s, true)
  | ok :: rest => ({ s with answers := rest }, ok)

theorem malloc_eq (s : Fs) :
    s.malloc = ({ s with answers := s.answers.tail }, s.answers.headD true) := by
  obtain ⟨table, device, freeMap, freeMapFile, answers⟩ := s
  cases answers <;> rfl

/-- The inode at an address. -/
def inode (s : Fs) (a : Nat) : Option Inode :=
  Objects.get Inode.addr s.inodes a

/-- The file at an address. -/
def file (s : Fs) (f : Nat) : Option File :=
  Objects.get File.addr s.files f

/-- Changes the inode at an address. -/
def setInode (s : Fs) (a : Nat) (g : Inode → Inode) : Fs :=
  { s with inodes := Objects.modify Inode.addr s.inodes a g }

/-- Changes the file at an address. -/
def setFile (s : Fs) (f : Nat) (g : File → File) : Fs :=
  { s with files := Objects.modify File.addr s.files f g }

/-- `inode_read_at`.  The answer about the bounce buffer is taken for every call, whether or
not the buffer is needed. -/
def inodeReadAt (s : Fs) (a : Nat) (size : Int) (offset : Nat) : Option (Fs × List Byte) := do
  let i ← s.inode a
  let (s, bounce) := s.malloc
  some (s, ← i.data.readAt s.device bounce size offset)

/-- `inode_write_at` behind the test of `deny_write_cnt`. -/
def writeAllowed (s : Fs) (i : Inode) (buffer : List Byte) (size : Int) (offset : Nat) :
    Option (Fs × Nat) := do
  let (s, bounce) := s.malloc
  let (device, written) ← i.data.writeAt s.device bounce buffer size offset
  some ({ s with device }, written)

/-- `inode_write_at`. -/
def inodeWriteAt (s : Fs) (a : Nat) (buffer : List Byte) (size : Int) (offset : Nat) :
    Option (Fs × Nat) := do
  let i ← s.inode a
  if i.denyWriteCnt ≠ 0 then
    some (s, 0)
  else
    s.writeAllowed i buffer size offset

/-- `file_read_at`. -/
def fileReadAt (s : Fs) (f : Nat) (size : Int) (fileOfs : Nat) : Option (Fs × List Byte) := do
  s.inodeReadAt (← s.file f).inode size fileOfs

/-- `file_write_at`. -/
def fileWriteAt (s : Fs) (f : Nat) (buffer : List Byte) (size : Int) (fileOfs : Nat) :
    Option (Fs × Nat) := do
  s.inodeWriteAt (← s.file f).inode buffer size fileOfs

/-- `bitmap_write` of the free map. -/
def bitmapWrite (s : Fs) (f : Nat) : Option (Fs × Bool) := do
  let size := Bitmap.byteCnt s.freeMap.bitCnt
  let (s, written) ← s.fileWriteAt f s.freeMap.bytes size 0
  some (s, written = size)

/-- `bitmap_read` of the free map. -/
def bitmapRead (s : Fs) (f : Nat) : Option (Fs × Bool) := do
  if s.freeMap.bitCnt > 0 then
    let size := Bitmap.byteCnt s.freeMap.bitCnt
    let (s, bytes) ← s.fileReadAt f size 0
    some ({ s with freeMap := ← s.freeMap.withBytes bytes }, bytes.length = size)
  else
    some (s, true)

/-- `free_map_allocate`: the first of the sectors. -/
def freeMapAllocate (s : Fs) (cnt : Nat) : Option (Fs × Option Nat) := do
  let (freeMap, sector) ← s.freeMap.scanAndFlip 0 cnt false
  let s := { s with freeMap }
  if sector = bitmapError then
    some (s, none)
  else
    match s.freeMapFile with
    | none => some (s, some sector)
    | some f =>
      let (s, ok) ← s.bitmapWrite f
      if ok then
        some (s, some sector)
      else
        some ({ s with freeMap := ← s.freeMap.setMultiple sector cnt false }, none)

/-- `free_map_release`. -/
def freeMapRelease (s : Fs) (sector cnt : Nat) : Option Fs := do
  assert ((← s.freeMap.all sector cnt) = true)
  let s := { s with freeMap := ← s.freeMap.setMultiple sector cnt false }
  let (s, _) ← s.bitmapWrite (← s.freeMapFile)
  some s

/-- The loop of `inode_create` that clears the data. -/
def writeZeros (d : Device) (start sectors : Nat) : Option Device :=
  (List.range sectors).foldlM
    (fun d i => d.blockWrite ((start + i) % unsignedSize) (List.replicate sectorSize 0)) d

/-- `inode_create`. -/
def inodeCreate (s : Fs) (sector : Nat) (length : Int) : Option (Fs × Bool) := do
  assert (0 ≤ length)
  let (s, ok) := s.malloc
  if ok then
    let sectors := bytesToSectors length
    match ← s.freeMapAllocate sectors with
    | (s, none) => some (s, false)
    | (s, some start) =>
      let device ← s.device.blockWrite sector (InodeDisk.bytes ⟨start, length, inodeMagic⟩)
      some ({ s with device := ← writeZeros device start sectors }, true)
  else
    some (s, false)

/-- `inode_reopen`. -/
def inodeReopen (s : Fs) (a : Nat) : Option Fs := do
  let _ ← s.inode a
  some (s.setInode a fun i => { i with openCnt := wrap (i.openCnt + 1) })

/-- `inode_open`. -/
def inodeOpen (s : Fs) (sector : Nat) : Option (Fs × Option Nat) := do
  match s.inodes.find? fun i => i.sector = sector with
  | some i => some (← s.inodeReopen i.addr, some i.addr)
  | none =>
    let (s, ok) := s.malloc
    if ok then
      let inode : Inode :=
        { addr := s.next, sector, openCnt := 1, removed := false, denyWriteCnt := 0
          data := InodeDisk.ofBytes (← s.device.blockRead sector) }
      some ({ s with inodes := inode :: s.inodes, next := s.next + 1 }, some s.next)
    else
      some (s, none)

/-- The end of `inode_close`, for the last opener. -/
def freeInode (s : Fs) (i : Inode) : Option Fs := do
  let s := { s with inodes := Objects.release Inode.addr s.inodes i.addr }
  if i.removed then
    let s ← s.freeMapRelease i.sector 1
    s.freeMapRelease i.data.start (bytesToSectors i.data.length)
  else
    some s

/-- `inode_close`. -/
def inodeClose (s : Fs) (a : Nat) : Option Fs := do
  let i ← s.inode a
  let openCnt := wrap (i.openCnt - 1)
  if openCnt = 0 then
    s.freeInode i
  else
    some (s.setInode a fun i => { i with openCnt })

/-- `inode_remove`. -/
def inodeRemove (s : Fs) (a : Nat) : Option Fs := do
  let _ ← s.inode a
  some (s.setInode a fun i => { i with removed := true })

/-- `inode_deny_write`. -/
def inodeDenyWrite (s : Fs) (a : Nat) : Option Fs := do
  let i ← s.inode a
  let denyWriteCnt := wrap (i.denyWriteCnt + 1)
  assert (denyWriteCnt ≤ i.openCnt)
  some (s.setInode a fun i => { i with denyWriteCnt })

/-- `inode_allow_write`. -/
def inodeAllowWrite (s : Fs) (a : Nat) : Option Fs := do
  let i ← s.inode a
  assert (0 < i.denyWriteCnt)
  assert (i.denyWriteCnt ≤ i.openCnt)
  some (s.setInode a fun i => { i with denyWriteCnt := wrap (i.denyWriteCnt - 1) })

/-- `file_open`; the inode may be a null pointer. -/
def fileOpen (s : Fs) (inode : Option Nat) : Option (Fs × Option Nat) := do
  let (s, ok) := s.malloc
  match inode with
  | none => some (s, none)
  | some a =>
    if ok ∧ s.files.length < maxFiles then
      let file : File := { addr := s.next, inode := a, pos := 0, denyWrite := false }
      some ({ s with files := file :: s.files, next := s.next + 1 }, some s.next)
    else
      some (← s.inodeClose a, none)

/-- `file_reopen`. -/
def fileReopen (s : Fs) (f : Nat) : Option (Fs × Option Nat) := do
  let file ← s.file f
  let s ← s.inodeReopen file.inode
  s.fileOpen (some file.inode)

/-- `file_deny_write`. -/
def fileDenyWrite (s : Fs) (f : Nat) : Option Fs := do
  let file ← s.file f
  if file.denyWrite then
    some s
  else
    (s.setFile f fun file => { file with denyWrite := true }).inodeDenyWrite file.inode

/-- `file_allow_write`. -/
def fileAllowWrite (s : Fs) (f : Nat) : Option Fs := do
  let file ← s.file f
  if file.denyWrite then
    (s.setFile f fun file => { file with denyWrite := false }).inodeAllowWrite file.inode
  else
    some s

/-- `file_close`. -/
def fileClose (s : Fs) (f : Nat) : Option Fs := do
  let s ← s.fileAllowWrite f
  let s ← s.inodeClose (← s.file f).inode
  some { s with files := Objects.release File.addr s.files f }

/-- `file_read`. -/
def fileRead (s : Fs) (f : Nat) (size : Int) : Option (Fs × List Byte) := do
  let file ← s.file f
  let (s, bytes) ← s.inodeReadAt file.inode size file.pos
  some (s.setFile f fun file => { file with pos := file.pos + bytes.length }, bytes)

/-- `file_write`. -/
def fileWrite (s : Fs) (f : Nat) (buffer : List Byte) (size : Int) : Option (Fs × Nat) := do
  let file ← s.file f
  let (s, written) ← s.inodeWriteAt file.inode buffer size file.pos
  some (s.setFile f fun file => { file with pos := file.pos + written }, written)

/-- `file_seek`. -/
def fileSeek (s : Fs) (f : Nat) (newPos : Int) : Option Fs := do
  let _ ← s.file f
  assert (0 ≤ newPos)
  some (s.setFile f fun file => { file with pos := newPos.toNat })

/-- `file_length`. -/
def fileLength (s : Fs) (f : Nat) : Option Int := do
  let file ← s.file f
  some (← s.inode file.inode).data.length

end Fs

/-! ## Counts -/

/-- The number of unclosed handles on an inode: the files, and the pointers held. -/
def users (files : List File) (held : List Nat) (a : Nat) : Nat :=
  files.countP (fun f => f.inode = a) + held.count a

/-- The number of its files that deny writes. -/
def deniers (files : List File) (a : Nat) : Nat :=
  files.countP fun f => f.inode = a ∧ f.denyWrite

/-- **The counts are exact**, as far as an `int` can tell. -/
structure Counted (t : OpenTable) (held : List Nat) : Prop where
  addrs : Distinct Inode.addr t.inodes
  sectors : Distinct Inode.sector t.inodes
  files : Distinct File.addr t.files
  inode_lt : ∀ i ∈ t.inodes, i.addr < t.next
  file_lt : ∀ f ∈ t.files, f.addr < t.next
  open_iff : ∀ a, 0 < users t.files held a ↔ ∃ i ∈ t.inodes, i.addr = a
  openCnt : ∀ i ∈ t.inodes, i.openCnt = wrap (users t.files held i.addr)
  denyWriteCnt : ∀ i ∈ t.inodes, i.denyWriteCnt = wrap (deniers t.files i.addr)

theorem wrap_of_lt {n : Nat} (h : n < 2147483648) : wrap n = n :=
  toOff_ofOff (by omega) (by omega)

/-- The number in the range of an `int` that has the same bits. -/
theorem wrap_spec (n : Int) :
    -2147483648 ≤ wrap n ∧ wrap n < 2147483648 ∧ (wrap n - n) % 4294967296 = 0 := by
  rw [wrap, toOff, ofOff]
  split <;> omega

theorem wrap_wrap_add (n k : Int) : wrap (wrap n + k) = wrap (n + k) := by
  have h := wrap_spec n
  have h' := wrap_spec (wrap n + k)
  have h'' := wrap_spec (n + k)
  omega

/-- The last handle is closed when the count comes down to 0. -/
theorem wrap_eq_zero_iff {n : Nat} (h : n < unsignedSize) : wrap n = 0 ↔ n = 0 := by
  have hspec := wrap_spec n
  unfold unsignedSize at h
  omega

theorem deniers_le_users (files : List File) (held : List Nat) (a : Nat) :
    deniers files a ≤ users files held a := by
  have h : deniers files a ≤ files.countP fun f => f.inode = a :=
    countP_mono_left fun f _ h => by
      simp only [decide_eq_true_eq] at h ⊢
      exact h.1
  exact Nat.le_trans h (Nat.le_add_right _ _)

namespace Counted
variable {t : OpenTable} {held : List Nat} {a f : Nat} {i : Inode} {file : File}

theorem users_cons_self (files : List File) (held : List Nat) (a : Nat) :
    users files (a :: held) a = users files held a + 1 := by
  rw [users, users, count_cons_self]
  rfl

theorem users_cons_ne {b : Nat} (hb : b ≠ a) (files : List File) (held : List Nat) :
    users files (a :: held) b = users files held b := by
  rw [users, users, count_cons_of_ne (Ne.symm hb)]

theorem users_erase_self (ha : a ∈ held) (files : List File) :
    users files (held.erase a) a + 1 = users files held a := by
  have hpos := count_pos_iff.mpr ha
  rw [users, users, count_erase_self]
  omega

theorem users_erase_ne {b : Nat} (hb : b ≠ a) (files : List File) (held : List Nat) :
    users files (held.erase a) b = users files held b := by
  rw [users, users, count_erase_of_ne hb]

theorem users_filter_ne {b : Nat} (hb : b ≠ a) (files : List File) (held : List Nat) :
    users files (held.filter (· ≠ a)) b = users files held b := by
  rw [users, users, count_filter (by simpa using hb)]

/-- A pointer that is the only handle leaves no file. -/
theorem no_file_of_users (ha : a ∈ held) {files : List File} (hlast : users files held a = 1) :
    ∀ f ∈ files, f.inode ≠ a := by
  intro f hf hfa
  have hfile : 0 < files.countP fun f => f.inode = a :=
    countP_pos_iff.mpr ⟨f, hf, decide_eq_true hfa⟩
  have hheld := count_pos_iff.mpr ha
  rw [users] at hlast
  omega

/-- A file's handle, counted as a pointer. -/
theorem users_closeFile {files : List File} (h : Distinct File.addr files)
    (hf : Objects.get File.addr files f = some file) (held : List Nat) (b : Nat) :
    users (Objects.release File.addr files f) (file.inode :: held) b = users files held b := by
  have hcount := h.countP_release hf fun g => g.inode = b
  rw [users, users, hcount]
  by_cases hb : file.inode = b
  · rw [if_pos (decide_eq_true hb), hb, count_cons_self]
    omega
  · rw [if_neg (by simpa using hb), count_cons_of_ne hb, Nat.add_zero]

section
variable (h : Counted t held)
include h

/-- An address that is not used yet has no handles. -/
theorem users_next : users t.files held t.next = 0 := by
  by_contra hne
  obtain ⟨i, hi, haddr⟩ := (h.open_iff t.next).mp (Nat.pos_of_ne_zero hne)
  exact Nat.lt_irrefl _ (haddr ▸ h.inode_lt i hi)

theorem get_of_file (hf : file ∈ t.files) :
    ∃ i, Objects.get Inode.addr t.inodes file.inode = some i := by
  have hpos : 0 < users t.files held file.inode :=
    Nat.lt_of_lt_of_le (countP_pos_iff.mpr ⟨file, hf, by simp⟩) (Nat.le_add_right _ _)
  obtain ⟨i, hi, haddr⟩ := (h.open_iff _).mp hpos
  exact haddr ▸ Objects.get_isSome hi

section
variable (hi : Objects.get Inode.addr t.inodes a = some i)
include hi

/-- What a change of one inode must keep. -/
theorem modify {held' : List Nat} {files' : List File} {g : Inode → Inode}
    (haddr : ∀ i, (g i).addr = i.addr) (hsector : ∀ i, (g i).sector = i.sector)
    (hfiles : Distinct File.addr files') (hlt : ∀ f ∈ files', f.addr < t.next)
    (hopen : (g i).openCnt = wrap (users files' held' a)) (hpos : 0 < users files' held' a)
    (hdeny : (g i).denyWriteCnt = wrap (deniers files' a))
    (hother : ∀ b, b ≠ a → users files' held' b = users t.files held b ∧
      deniers files' b = deniers t.files b) :
    Counted ⟨Objects.modify Inode.addr t.inodes a g, files', t.next⟩ held' := by
  have hia := key_of_get hi
  have hmem : ∀ {j}, j ∈ Objects.modify Inode.addr t.inodes a g ↔
      j = g i ∨ j ∈ t.inodes ∧ j.addr ≠ a := Objects.mem_modify h.addrs hi
  refine ⟨h.addrs.modify haddr, h.sectors.modify hsector, hfiles, ?_, hlt, fun b => ?_, ?_, ?_⟩
  · intro j hj
    rcases hmem.mp hj with rfl | ⟨hj, -⟩
    · rw [haddr]
      exact h.inode_lt i (mem_of_get hi)
    · exact h.inode_lt j hj
  · by_cases hb : b = a
    · rw [hb]
      exact ⟨fun _ => ⟨g i, hmem.mpr (.inl rfl), (haddr i).trans hia⟩, fun _ => hpos⟩
    · rw [(hother b hb).1, h.open_iff]
      constructor
      · rintro ⟨j, hj, hjb⟩
        exact ⟨j, hmem.mpr (.inr ⟨hj, hjb ▸ hb⟩), hjb⟩
      · rintro ⟨j, hj, hjb⟩
        rcases hmem.mp hj with rfl | ⟨hj, -⟩
        · exact absurd (hjb.symm.trans ((haddr i).trans hia)) hb
        · exact ⟨j, hj, hjb⟩
  · intro j hj
    rcases hmem.mp hj with rfl | ⟨hj, hja⟩
    · rw [hopen, haddr, hia]
    · rw [h.openCnt j hj, (hother j.addr hja).1]
  · intro j hj
    rcases hmem.mp hj with rfl | ⟨hj, hja⟩
    · rw [hdeny, haddr, hia]
    · rw [h.denyWriteCnt j hj, (hother j.addr hja).2]

/-- An inode is opened once more. -/
theorem reopen :
    Counted { t with inodes := Objects.modify Inode.addr t.inodes a fun i =>
      { i with openCnt := wrap (i.openCnt + 1) } } (a :: held) := by
  have hmem := mem_of_get hi
  have hia := key_of_get hi
  refine h.modify hi (fun _ => rfl) (fun _ => rfl) h.files h.file_lt ?_ ?_ ?_ fun b hb =>
    ⟨users_cons_ne hb _ _, rfl⟩
  · rw [h.openCnt i hmem, hia, wrap_wrap_add, users_cons_self]
    rfl
  · rw [users_cons_self]
    exact Nat.succ_pos _
  · rw [← hia]
    exact h.denyWriteCnt i hmem

/-- A handle that is not the last one is closed. -/
theorem close (ha : a ∈ held) (hmore : 1 < users t.files held a) :
    Counted { t with inodes := Objects.modify Inode.addr t.inodes a fun j =>
      { j with openCnt := wrap (i.openCnt - 1) } } (held.erase a) := by
  have hmem := mem_of_get hi
  have hia := key_of_get hi
  have herase := users_erase_self ha t.files
  refine h.modify hi (fun _ => rfl) (fun _ => rfl) h.files h.file_lt ?_ (by omega) ?_ fun b hb =>
    ⟨users_erase_ne hb _ _, rfl⟩
  · change wrap (i.openCnt + -1) = _
    rw [h.openCnt i hmem, hia, wrap_wrap_add, ← herase]
    congr 1
    omega
  · rw [← hia]
    exact h.denyWriteCnt i hmem

/-- An inode is removed. -/
theorem remove :
    Counted { t with inodes := Objects.modify Inode.addr t.inodes a fun i =>
      { i with removed := true } } held := by
  have hmem := mem_of_get hi
  have hia := key_of_get hi
  refine h.modify hi (fun _ => rfl) (fun _ => rfl) h.files h.file_lt (hia ▸ h.openCnt i hmem) ?_
    (hia ▸ h.denyWriteCnt i hmem) fun b _ => ⟨rfl, rfl⟩
  exact (h.open_iff a).mpr ⟨i, hmem, hia⟩

end

/-- An inode is opened for the first time. -/
theorem push {sector : Nat} (hsector : ∀ i ∈ t.inodes, i.sector ≠ sector) (data : InodeDisk) :
    Counted { t with inodes := ⟨t.next, sector, 1, false, 0, data⟩ :: t.inodes, next := t.next + 1 }
      (t.next :: held) := by
  have hnext := h.users_next
  have hdeny : deniers t.files t.next = 0 := by
    have := deniers_le_users t.files held t.next
    omega
  have hne : ∀ i ∈ t.inodes, i.addr ≠ t.next := fun i hi => Nat.ne_of_lt (h.inode_lt i hi)
  refine ⟨pairwise_cons.mpr ⟨fun i hi => Ne.symm (hne i hi), h.addrs⟩,
    pairwise_cons.mpr ⟨fun i hi => Ne.symm (hsector i hi), h.sectors⟩, h.files,
    forall_mem_cons.mpr ⟨Nat.lt_succ_self _, fun i hi => Nat.lt_succ_of_lt (h.inode_lt i hi)⟩,
    fun f hf => Nat.lt_succ_of_lt (h.file_lt f hf), fun b => ?_,
    forall_mem_cons.mpr ⟨?_, fun i hi => ?_⟩,
    forall_mem_cons.mpr ⟨?_, h.denyWriteCnt⟩⟩
  · by_cases hb : b = t.next
    · rw [hb, users_cons_self]
      exact ⟨fun _ => ⟨_, mem_cons_self, rfl⟩, fun _ => Nat.succ_pos _⟩
    · rw [users_cons_ne hb, h.open_iff]
      constructor
      · rintro ⟨i, hi, hib⟩
        exact ⟨i, mem_cons_of_mem _ hi, hib⟩
      · rintro ⟨i, hi, hib⟩
        rcases mem_cons.mp hi with rfl | hi
        · exact absurd hib.symm hb
        · exact ⟨i, hi, hib⟩
  · rw [users_cons_self, hnext]
    rfl
  · rw [users_cons_ne (hne i hi), h.openCnt i hi]
  · rw [hdeny]
    rfl

/-- Where only the files and the handles change, and no count does. -/
theorem congr {held' : List Nat} {files' : List File} {next' : Nat}
    (hfiles : Distinct File.addr files') (hlt : ∀ f ∈ files', f.addr < next')
    (hnext : t.next ≤ next') (husers : ∀ b, users files' held' b = users t.files held b)
    (hdeniers : ∀ b, deniers files' b = deniers t.files b) :
    Counted ⟨t.inodes, files', next'⟩ held' := by
  refine ⟨h.addrs, h.sectors, hfiles, fun i hi => Nat.lt_of_lt_of_le (h.inode_lt i hi) hnext, hlt,
    fun b => ?_, fun i hi => ?_, fun i hi => ?_⟩
  · rw [husers, h.open_iff]
  · rw [husers, h.openCnt i hi]
  · rw [hdeniers, h.denyWriteCnt i hi]

/-- An inode that has no file is freed, and with it the handles on it. -/
theorem free (hfiles : ∀ f ∈ t.files, f.inode ≠ a) :
    Counted { t with inodes := Objects.release Inode.addr t.inodes a }
      (held.filter (· ≠ a)) := by
  have hmem : ∀ {j}, j ∈ Objects.release Inode.addr t.inodes a ↔ j ∈ t.inodes ∧ j.addr ≠ a :=
    mem_release
  have hnone : users t.files (held.filter (· ≠ a)) a = 0 := by
    rw [users, Nat.add_eq_zero_iff, countP_eq_zero, count_eq_zero]
    exact ⟨fun f hf => by simpa using hfiles f hf, by simp⟩
  refine ⟨h.addrs.release a, List.Pairwise.filter _ h.sectors, h.files,
    fun j hj => h.inode_lt j (hmem.mp hj).1, h.file_lt, fun b => ?_, fun j hj => ?_,
    fun j hj => h.denyWriteCnt j (hmem.mp hj).1⟩
  · by_cases hb : b = a
    · rw [hb]
      refine ⟨fun hpos => absurd hnone (Nat.ne_of_gt hpos), ?_⟩
      rintro ⟨j, hj, hja⟩
      exact absurd hja (hmem.mp hj).2
    · rw [users_filter_ne hb, h.open_iff]
      exact ⟨fun ⟨j, hj, hjb⟩ => ⟨j, hmem.mpr ⟨hj, hjb ▸ hb⟩, hjb⟩,
        fun ⟨j, hj, hjb⟩ => ⟨j, (hmem.mp hj).1, hjb⟩⟩
  · rw [users_filter_ne (hmem.mp hj).2, h.openCnt j (hmem.mp hj).1]

/-- The last handle is closed. -/
theorem closeLast (ha : a ∈ held) (hlast : users t.files held a = 1) :
    Counted { t with inodes := Objects.release Inode.addr t.inodes a } (held.erase a) := by
  have hfree := h.free (no_file_of_users ha hlast)
  refine hfree.congr h.files h.file_lt (Nat.le_refl _) (fun b => ?_) fun _ => rfl
  by_cases hb : b = a
  · have herase := users_erase_self ha t.files
    have hnone : users t.files (held.filter (· ≠ a)) a = 0 := by
      by_contra hne
      obtain ⟨j, hj, hja⟩ := (hfree.open_iff a).mp (Nat.pos_of_ne_zero hne)
      exact (mem_release.mp hj).2 hja
    rw [hb]
    change _ = users t.files (held.filter (· ≠ a)) a
    omega
  · exact (users_erase_ne hb _ _).trans (users_filter_ne hb _ _).symm

/-- A file takes over a handle. -/
theorem openFile (ha : a ∈ held) :
    Counted { t with files := ⟨t.next, a, 0, false⟩ :: t.files, next := t.next + 1 }
      (held.erase a) := by
  refine h.congr ?_ ?_ (Nat.le_succ _) (fun b => ?_) fun b => ?_
  · exact pairwise_cons.mpr ⟨fun f hf => Nat.ne_of_gt (h.file_lt f hf), h.files⟩
  · exact forall_mem_cons.mpr
      ⟨Nat.lt_succ_self _, fun f hf => Nat.lt_succ_of_lt (h.file_lt f hf)⟩
  · rw [users, countP_cons]
    by_cases hb : b = a
    · have herase := users_erase_self ha t.files
      rw [users] at herase
      rw [hb, ← herase, if_pos (decide_eq_true rfl)]
      omega
    · have herase := users_erase_ne hb t.files held
      rw [users] at herase
      rw [← herase, if_neg (by simpa using Ne.symm hb)]
      omega
  · rw [deniers, countP_cons, if_neg (by simp), deniers]
    rfl

/-- A file that denies no writes gives its handle back. -/
theorem closeFile (hf : Objects.get File.addr t.files f = some file)
    (hdeny : file.denyWrite = false) :
    Counted { t with files := Objects.release File.addr t.files f } (file.inode :: held) := by
  refine h.congr (h.files.release f) (fun g hg => h.file_lt g (mem_release.mp hg).1)
    (Nat.le_refl _) (users_closeFile h.files hf held) fun b => ?_
  rw [deniers, deniers, h.files.countP_release hf, if_neg (by simp [hdeny]), Nat.add_zero]

/-- A file moves. -/
theorem setPos (f : Nat) (g : File → Nat) :
    Counted { t with files := Objects.modify File.addr t.files f fun file =>
      { file with pos := g file } } held := by
  refine h.congr (h.files.modify fun _ => rfl)
    (Objects.forall_modify (fun _ => Iff.rfl) h.file_lt) (Nat.le_refl _) (fun b => ?_)
    fun b => countP_modify_of_keep fun _ => rfl
  exact congrArg (· + held.count b) (countP_modify_of_keep fun _ => rfl)

/-- A file denies writes, or allows them again. -/
theorem setDenyWrite (hf : Objects.get File.addr t.files f = some file)
    (hi : Objects.get Inode.addr t.inodes file.inode = some i) {v : Bool}
    (hvalue : file.denyWrite = !v) {c : Inode → Int}
    (hcnt : c i = wrap (i.denyWriteCnt + if v then 1 else -1)) :
    Counted { t with
      files := Objects.modify File.addr t.files f fun file => { file with denyWrite := v }
      inodes := Objects.modify Inode.addr t.inodes file.inode fun i =>
        { i with denyWriteCnt := c i } } held := by
  have hmem := mem_of_get hi
  have hia := key_of_get hi
  have husers : ∀ b, users (Objects.modify File.addr t.files f fun file =>
      { file with denyWrite := v }) held b = users t.files held b := fun b =>
    congrArg (· + held.count b) (countP_modify_of_keep fun _ => rfl)
  have hdeniers := fun b => h.files.countP_modify hf (fun g => g.inode = b ∧ g.denyWrite)
    fun file => { file with denyWrite := v }
  have hbefore := fun b => h.files.countP_release hf fun g => g.inode = b ∧ g.denyWrite
  refine h.modify hi (fun _ => rfl) (fun _ => rfl) (h.files.modify fun _ => rfl)
    (Objects.forall_modify (fun _ => Iff.rfl) h.file_lt) ?_ ?_ ?_ fun b hb => ⟨husers b, ?_⟩
  · rw [husers, ← hia]
    exact h.openCnt i hmem
  · rw [husers]
    exact (h.open_iff _).mpr ⟨i, hmem, hia⟩
  · change c i = _
    rw [hcnt, h.denyWriteCnt i hmem, hia, wrap_wrap_add, deniers, deniers, hdeniers, hbefore]
    congr 1
    cases v
    · rw [if_pos (by simp [hvalue]), if_neg (by simp), if_neg (by simp)]
      omega
    · rw [if_neg (by simp [hvalue]), if_pos rfl, if_pos (by simp)]
      omega
  · rw [deniers, deniers, hdeniers, hbefore]
    simp [Ne.symm hb]

end

end Counted
end Pintos.Filesys
