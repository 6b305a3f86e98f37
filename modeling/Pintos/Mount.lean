import Pintos.Volume

/-!
# Formatting and mounting

`filesys_init` and `filesys_done` of `filesys/filesys.c`, with what they use of
`filesys/free-map.c`.  The free map is a file that is itself allocated from the free map;
it is written whenever sectors are taken or released, and read when the file system is
mounted.

**A formatted file system is in order** (`formatted_of_init`): it has two inodes, of the
free map and of the root directory, which is empty.  **A file system that is mounted again
has the free map it had** (`mounted_of_init`), bit for bit, and not a byte of the device
changes.
-/

namespace Pintos.Filesys
namespace Fs

/-! ## The code -/

/-- Before `filesys_init`. -/
def boot (device : Device) (answers : List Bool) : Fs where
  inodes := []
  files := []
  next := 0
  device := device
  freeMap := ⟨0, [], by decide, by decide⟩
  freeMapFile := none
  answers := answers

/-- `free_map_init`.  `words` is what the memory of the bitmap held. -/
def freeMapInit (s : Fs) (words : Nat → BitVec 32) : Option Fs := do
  let (s, ok) := s.malloc
  let (s, ok') := s.malloc
  assert (ok = true ∧ (ok' = true ∨ s.device.size = 0))
  let freeMap ← Bitmap.create s.device.size words
  let freeMap ← freeMap.mark 0
  let freeMap ← freeMap.mark 1
  some { s with freeMap }

/-- `free_map_file = file_open (inode_open (FREE_MAP_SECTOR))`; it is not a null pointer. -/
def openFreeMapFile (s : Fs) : Option (Fs × Nat) := do
  let (s, a) ← s.inodeOpen 0
  let (s, f) ← s.fileOpen a
  some ({ s with freeMapFile := f }, ← f)

/-- `free_map_create`. -/
def freeMapCreate (s : Fs) : Option Fs := do
  let (s, ok) ← s.inodeCreate 0 (Bitmap.byteCnt s.freeMap.bitCnt)
  assert (ok = true)
  let (s, f) ← s.openFreeMapFile
  let (s, ok) ← s.bitmapWrite f
  assert (ok = true)
  some s

/-- `free_map_open`. -/
def freeMapOpen (s : Fs) : Option Fs := do
  let (s, f) ← s.openFreeMapFile
  let (s, ok) ← s.bitmapRead f
  assert (ok = true)
  some s

/-- `free_map_close`. -/
def freeMapClose (s : Fs) : Option Fs := do
  s.fileClose (← s.freeMapFile)

/-- `dir_create`; the product is a `size_t`, the length an `off_t`. -/
def dirCreate (s : Fs) (sector entryCnt : Nat) : Option (Fs × Bool) :=
  s.inodeCreate sector (toOff (entryCnt * 20 % unsignedSize))

/-- `do_format`. -/
def doFormat (s : Fs) : Option Fs := do
  let s ← s.freeMapCreate
  let (s, ok) ← s.dirCreate 1 16
  assert (ok = true)
  s.freeMapClose

/-- `filesys_init`, on a device. -/
def filesysInit (device : Device) (words : Nat → BitVec 32) (answers : List Bool) (format : Bool) :
    Option Fs := do
  let s ← (boot device answers).freeMapInit words
  let s ← if format then s.doFormat else some s
  s.freeMapOpen

/-- `filesys_done`. -/
def filesysDone (s : Fs) : Option Fs :=
  s.freeMapClose

end Fs

/-! ## The free map's file -/

/-- The file system with nothing open but the file of the free map. -/
def mounted (device : Device) (freeMap : Bitmap) (next : Nat) (answers : List Bool) : Fs where
  inodes := [⟨next, 0, 1, false, 0, inodeAt device 0⟩]
  files := [⟨next + 1, next, 0, false⟩]
  next := next + 2
  device := device
  freeMap := freeMap
  freeMapFile := some (next + 1)
  answers := answers

section MapFile
variable {s s' : Fs} {d : Device} {b b' : Bitmap} {next f : Nat} {answers : List Bool}
  {nodes : Set Nat}

theorem mounted_start (d : Device) (b : Bitmap) (next : Nat) (answers : List Bool) :
    Handles.Start ⟨mounted d b next answers, []⟩ :=
  ⟨rfl, next + 1, next, inodeAt d 0, rfl, rfl, rfl, by simp [mounted], by simp [mounted]⟩

theorem mounted_volume (h : Owned d b nodes) (h0 : 0 ∈ nodes)
    (hlength : (inodeAt d 0).length = Bitmap.byteCnt d.size) (next : Nat) (answers : List Bool) :
    Volume (mounted d b next answers) (mounted d b next answers).files nodes [] := by
  refine ⟨(mounted_start d b next answers).ok, h, ?_, ?_, by simp [mounted, maxFiles, unsignedSize],
    ?_⟩
  · exact List.forall_mem_singleton.mpr ⟨h0, rfl⟩
  · exact List.forall_mem_singleton.mpr rfl
  · rintro _ ⟨⟩
    exact ⟨h0, hlength, _, _, Objects.get_cons_self _ _, Objects.get_cons_self _ _, rfl⟩

/-- Where nothing is open, the file of the free map is opened. -/
theorem openFreeMapFile_eq (hinodes : s.inodes = []) (hfiles : s.files = [])
    (hsize : 0 < s.device.size) :
    s.openFreeMapFile = if s.answers.headD true = true ∧ s.answers.tail.headD true = true then
      some (mounted s.device s.freeMap s.next s.answers.tail.tail, s.next + 1) else none := by
  obtain ⟨⟨inodes, files, next⟩, device, freeMap, freeMapFile, answers⟩ := s
  obtain rfl : inodes = [] := hinodes
  obtain rfl : files = [] := hfiles
  have hread : device.blockRead 0 = some (device.bytes.load (sectorSize * 0) sectorSize) := by
    rw [Device.blockRead, assert_of hsize]
    rfl
  have hmax : 0 < maxFiles := by decide
  simp only [Fs.openFreeMapFile, Fs.inodeOpen, List.find?_nil, Fs.malloc_eq]
  cases hhead : answers.headD true with
  | false =>
    simp [Fs.fileOpen, Fs.malloc_eq]
  | true =>
    simp only [if_true, hread, some_bind, Fs.fileOpen_eq, true_and, List.length_nil, hmax, and_true]
    cases answers.tail.headD true with
    | false =>
      simp only [Bool.false_eq_true, if_false]
      cases Fs.inodeClose _ _ <;> rfl
    | true => rfl

theorem openFreeMapFile_of_some (hinodes : s.inodes = []) (hfiles : s.files = [])
    (hsize : 0 < s.device.size) (h : s.openFreeMapFile = some (s', f)) :
    s' = mounted s.device s.freeMap s.next s.answers.tail.tail ∧ f = s.next + 1 := by
  rw [openFreeMapFile_eq hinodes hfiles hsize] at h
  split at h
  · cases h
    exact ⟨rfl, rfl⟩
  · exact nomatch h

/-- The file of the free map is closed, with nothing else open. -/
theorem freeMapClose_of_alone {a pos : Nat} {data : InodeDisk}
    (hinodes : s.inodes = [⟨a, 0, 1, false, 0, data⟩]) (hfiles : s.files = [⟨f, a, pos, false⟩])
    (hmap : s.freeMapFile = some f) :
    s.freeMapClose = some { s with inodes := [], files := [] } := by
  have hfile : s.file f = some ⟨f, a, pos, false⟩ := by
    rw [Fs.file, hfiles]
    exact Objects.get_cons_self _ _
  have hinode : s.inode a = some ⟨a, 0, 1, false, 0, data⟩ := by
    rw [Fs.inode, hinodes]
    exact Objects.get_cons_self _ _
  have hallow : s.fileAllowWrite f = some s := by
    rw [Fs.fileAllowWrite, hfile]
    rfl
  have hclose : s.inodeClose a = some { s with inodes := [] } := by
    have hrelease : Objects.release Inode.addr s.inodes a = [] := by
      simp [Objects.release, hinodes]
    have hzero : wrap (1 - 1) = 0 := by decide
    simp only [Fs.inodeClose, hinode, some_bind, if_pos hzero, Fs.freeInode, hrelease]
    rfl
  have hrelease : Objects.release File.addr s.files f = [] := by
    simp [Objects.release, hfiles]
  simp only [Fs.freeMapClose, hmap, some_bind, Fs.fileClose, hallow, hfile, hclose, hrelease]

/-- The bytes that are read make the free map. -/
theorem Saved.withBytes (h : Owned d b nodes) (hsaved : Saved d b) (hcnt : b'.bitCnt = d.size) :
    ∃ b'', b'.withBytes (d.bytes.load ((inodeAt d 0).at 0) (Bitmap.byteCnt d.size)) = some b'' ∧
      b''.bitCnt = d.size ∧ ∀ k, k < d.size → b''.bit k = b.bit k := by
  have hbits := h.bitCnt
  obtain ⟨b₀, hcnt₀, hbits₀, hload⟩ := hsaved
  have hsize : b₀.bitCnt = d.size := hcnt₀.trans hbits
  have hlt : b₀.bitCnt + 31 < unsignedSize := hsize ▸ h.size_lt
  obtain ⟨b'', hwith, hcnt'', hsame⟩ := Bitmap.withBytes_spec hlt (hcnt.trans hsize.symm)
  rw [← hload, hsize] at hwith
  refine ⟨b'', hwith, hcnt''.trans hsize, fun k hk => ?_⟩
  rw [hsame k (hsize ▸ hk), hbits₀ k (hbits ▸ hk)]

section
variable (h : Owned d b nodes) (h0 : 0 ∈ nodes)
  (hlength : (inodeAt d 0).length = Bitmap.byteCnt d.size) (hcnt : b'.bitCnt = d.size)
  (hpos : 0 < d.size)
include h h0 hlength hcnt hpos

/-- `bitmap_read` reads some of the file of the free map, and all of it if there is memory. -/
theorem bitmapRead_eq (next : Nat) (answers : List Bool) :
    ∃ r, (answers.headD true = true → r = Bitmap.byteCnt d.size) ∧
      (mounted d b' next answers).bitmapRead (next + 1) =
        (b'.withBytes (d.bytes.load ((inodeAt d 0).at 0) r)).bind fun b'' =>
          some (mounted d b'' next answers.tail, decide (r = Bitmap.byteCnt d.size)) := by
  have hfile : (mounted d b' next answers).file (next + 1) = some ⟨next + 1, next, 0, false⟩ :=
    Objects.get_cons_self _ _
  have hinode : (mounted d b' next answers).inode next =
      some ⟨next, 0, 1, false, 0, inodeAt d 0⟩ := Objects.get_cons_self _ _
  have hbits : (mounted d b' next answers).freeMap.bitCnt = d.size := hcnt
  obtain ⟨r, hall, hcode⟩ := Fs.bitmapRead_spec hfile hinode (h.onDevice 0 h0)
    (hlength.trans (by rw [hbits])) (hbits ▸ hpos)
  rw [hbits] at hall hcode
  exact ⟨r, hall, hcode⟩

variable (hsaved : Saved d b)
include hsaved

/-- **`bitmap_read`** of a free map that is on the device. -/
theorem bitmapRead_of_some
    (hcode : (mounted d b' next answers).bitmapRead (next + 1) = some (s', true)) :
    ∃ b'', s' = mounted d b'' next answers.tail ∧ b''.bitCnt = d.size ∧
      ∀ k, k < d.size → b''.bit k = b.bit k := by
  obtain ⟨r, -, heq⟩ := bitmapRead_eq h h0 hlength hcnt hpos next answers
  obtain ⟨b₁, hwith₁, hsome⟩ := of_bind (heq.symm.trans hcode)
  obtain ⟨rfl, hr⟩ := Prod.mk.inj (Option.some.inj hsome)
  obtain ⟨b'', hwith, hcnt'', hsame⟩ := Saved.withBytes h hsaved hcnt
  rw [of_decide_eq_true hr] at hwith₁
  cases hwith₁.symm.trans hwith
  exact ⟨b₁, rfl, hcnt'', hsame⟩

/-- With memory, the free map is read. -/
theorem bitmapRead_of_memory (next : Nat) :
    ∃ s', (mounted d b' next []).bitmapRead (next + 1) = some (s', true) := by
  obtain ⟨r, hall, heq⟩ := bitmapRead_eq h h0 hlength hcnt hpos next []
  obtain ⟨b'', hwith, -, -⟩ := Saved.withBytes h hsaved hcnt
  have hr := hall rfl
  refine ⟨mounted d b'' next [], ?_⟩
  rw [heq, hr, hwith, Option.bind_some, decide_eq_true rfl]
  rfl

end

end MapFile

/-! ## Mounting -/

/-- A bitmap of so many bits that their number of words wraps cannot be made. -/
theorem Bitmap.create_eq_some {bitCnt : Nat} {words : Nat → BitVec 32} {b : Bitmap}
    (h : Bitmap.create bitCnt words = some b) : bitCnt + 31 < unsignedSize := by
  rw [Bitmap.create] at h
  split at h
  · rename_i hcnt
    rw [Bitmap.elemCnt, divRoundUp] at hcnt
    unfold unsignedSize at *
    omega
  · cases h

/-- **`free_map_init`**: only the first two sectors are marked. -/
theorem freeMapInit_of_some {d : Device} {answers : List Bool} {words : Nat → BitVec 32} {s : Fs}
    (h : (Fs.boot d answers).freeMapInit words = some s) :
    ∃ b, s = { Fs.boot d answers.tail.tail with freeMap := b } ∧ b.bitCnt = d.size ∧
      d.size + 31 < unsignedSize ∧ 0 < d.size ∧ b.bit 0 = true ∧ b.bit 1 = true ∧
      ∀ k, k < d.size → (b.bit k = true ↔ k = 0 ∨ k = 1) := by
  rw [Fs.freeMapInit, Fs.malloc_eq] at h
  dsimp only at h
  rw [Fs.malloc_eq] at h
  obtain ⟨_, -, h⟩ := of_bind h
  obtain ⟨b₀, hcreate, h⟩ := of_bind h
  obtain ⟨b₁, hmark₁, h⟩ := of_bind h
  obtain ⟨b₂, hmark₂, h⟩ := of_bind h
  cases h
  have hcreate : Bitmap.create d.size words = some b₀ := hcreate
  have hsize := Bitmap.create_eq_some hcreate
  obtain ⟨b, hcreate', hcnt, hclear⟩ := Bitmap.create_spec words hsize
  cases hcreate'.symm.trans hcreate
  have hset₁ := Bitmap.mark_eq_some hmark₁
  have hset₂ := Bitmap.mark_eq_some hmark₂
  have hpos : 0 < d.size := by
    by_contra hzero
    have h0 : d.size = 0 := by omega
    obtain ⟨b, hcreate₀, hempty⟩ : ∃ b, Bitmap.create 0 words = some b ∧ b.bits = [] :=
      ⟨_, rfl, rfl⟩
    cases hcreate₀.symm.trans (h0 ▸ hcreate)
    have hword := Bitmap.elemIdx_of_mark hmark₁
    rw [hempty] at hword
    exact nomatch hword
  refine ⟨b₂, rfl, hset₂.bitCnt_eq.trans (hset₁.bitCnt_eq.trans hcnt), hsize, hpos, ?_, ?_, ?_⟩
  · rw [hset₂.bit_eq, hset₁.bit_eq]
    rfl
  · rw [hset₂.bit_eq]
    rfl
  · intro k hk
    rw [hset₂.bit_eq, hset₁.bit_eq, hclear k hk]
    by_cases hk1 : k = 1
    · simp [hk1]
    · by_cases hk0 : k = 0 <;> simp [hk1, hk0]

/-- **A formatted file system**: the inodes of the free map and of the root directory, and
nothing else. -/
structure Formatted (s : Fs) : Prop where
  mounted : ∃ next, s = mounted s.device s.freeMap next s.answers
  owned : Owned s.device s.freeMap {1, 0}
  mapLength : (inodeAt s.device 0).length = Bitmap.byteCnt s.device.size
  rootLength : (inodeAt s.device 1).length = 320
  zeros : s.device.bytes.load ((inodeAt s.device 1).at 0) 320 = List.replicate 320 0
  saved : Saved s.device s.freeMap
  bits : ∀ k, k < s.device.size → s.freeMap.bit k = true → Area s.device 0 k ∨ Area s.device 1 k

/-- What `free_map_create` leaves. -/
structure MapCreated (d : Device) (b : Bitmap) : Prop where
  owned : Owned d b {0}
  mapLength : (inodeAt d 0).length = Bitmap.byteCnt d.size
  saved : Saved d b
  lt : 1 < d.size
  root : b.bit 1 = true ∧ ¬(inodeAt d 0).Has 1
  bits : ∀ k, k < d.size → b.bit k = true → k = 1 ∨ Area d 0 k

section Format
variable {d : Device} {b : Bitmap} {answers : List Bool} {s : Fs}

section
variable (hcnt : b.bitCnt = d.size) (hsize : d.size + 31 < unsignedSize) (hpos : 0 < d.size)
  (hbit0 : b.bit 0 = true)
include hcnt hsize hpos hbit0

/-- The inode of the free map is made, on a device on which nothing is. -/
theorem bootCreate (answers : List Bool) :
    ∃ s ok, Fs.inodeCreate { Fs.boot d answers with freeMap := b } 0 (Bitmap.byteCnt d.size : Nat) =
        some (s, ok) ∧
      InodeCreate { Fs.boot d answers with freeMap := b } [] ∅ [] 0 (Bitmap.byteCnt d.size : Nat) ok
        s := by
  have hvolume : Volume { Fs.boot d answers with freeMap := b } [] ∅ [] := by
    refine ⟨⟨.nil, .nil, .nil, ?_, ?_, ?_, ?_, ?_⟩, ⟨hcnt, hsize, ?_, ?_, ?_, ?_, ?_⟩, ?_, ?_, ?_, ?_⟩
    all_goals simp [Fs.boot, users]
  have hreserved : Reserved { Fs.boot d answers with freeMap := b } ∅ 0 :=
    ⟨hpos, hbit0, fun m hm => absurd hm (Set.notMem_empty m)⟩
  have hbyte : Bitmap.byteCnt d.size < 2147483648 := by
    have hle : Bitmap.byteCnt d.size = 4 * ((d.size + 31) / 32) :=
      hcnt ▸ Bitmap.byteCnt_eq (hcnt ▸ hsize)
    unfold unsignedSize at hsize
    omega
  exact hvolume.inodeCreate hreserved (Int.natCast_nonneg _) (by omega)

theorem freeMapCreate_of_some (hbit1 : b.bit 1 = true)
    (hbits : ∀ k, k < d.size → (b.bit k = true ↔ k = 0 ∨ k = 1))
    (h : Fs.freeMapCreate { Fs.boot d answers with freeMap := b } = some s) :
    ∃ d' b' next answers', s = mounted d' b' next answers' ∧ d'.size = d.size ∧
      MapCreated d' b' ∧ (answers = [] → answers' = []) := by
  let s₀ : Fs := { Fs.boot d answers with freeMap := b }
  obtain ⟨⟨s₁, ok⟩, hcode₁, h⟩ := of_bind h
  obtain ⟨s₁', ok', hcode₁', hcreate⟩ := bootCreate hcnt hsize hpos hbit0 answers
  have hcode₁ : s₀.inodeCreate 0 (Bitmap.byteCnt b.bitCnt : Nat) = some (s₁, ok) := hcode₁
  rw [hcnt, hcode₁'] at hcode₁
  obtain ⟨rfl, rfl⟩ := Prod.mk.inj (Option.some.inj hcode₁)
  obtain ⟨_, hok, h⟩ := of_bind h
  obtain ⟨hvolume₁, hcreated⟩ := hcreate.created (of_assert hok)
  have hinodes : s₁'.inodes = [] := by rw [hcreate.table]; rfl
  have hfiles : s₁'.files = [] := by rw [hcreate.table]; rfl
  have hsize₁ : s₁'.device.size = d.size := hcreated.device.size
  obtain ⟨⟨s₂, f⟩, hcode₂, h⟩ := of_bind h
  obtain ⟨rfl, rfl⟩ := openFreeMapFile_of_some hinodes hfiles (hsize₁ ▸ hpos) hcode₂
  have hlength : (inodeAt s₁'.device 0).length = Bitmap.byteCnt s₁'.device.size := by
    rw [hcreated.length_eq, hsize₁]
  have howned : Owned s₁'.device s₁'.freeMap {0} := by
    have hset : insert 0 (∅ : Set Nat) = {0} := by simp
    exact hset ▸ hvolume₁.owned
  have hvolume₂ := mounted_volume howned rfl hlength s₁'.next s₁'.answers.tail.tail
  obtain ⟨⟨s₃, ok⟩, hcode₃, h⟩ := of_bind h
  obtain ⟨_, hok₃, h⟩ := of_bind h
  cases h
  obtain ⟨d', ok', hwrite, hsame, -, hsaved⟩ := hvolume₂.bitmapWrite rfl
  cases hwrite.symm.trans hcode₃
  have h0 : ¬MapArea (mounted s₁'.device s₁'.freeMap s₁'.next s₁'.answers.tail.tail) 0 :=
    hvolume₂.not_mapArea rfl
  have hinode : inodeAt d' 0 = inodeAt s₁'.device 0 := hsame.inodeAt h0
  have hfree1 : ¬(inodeAt s₁'.device 0).Has 1 := fun hhas =>
    absurd (hcreated.fresh 1 hhas) (by rw [show s₀.freeMap.bit 1 = true from hbit1]; decide)
  refine ⟨d', s₁'.freeMap, s₁'.next, s₁'.answers.tail.tail.tail, ?_, hsame.size.trans hsize₁,
    ⟨howned.unchanged hsame fun n hn => hvolume₂.not_mapArea hn, ?_, hsaved (of_assert hok₃), ?_,
    ⟨?_, ?_⟩, fun k hk hbit => ?_⟩, fun hnil => ?_⟩
  · rw [mounted, mounted, hinode]
  · rw [hinode, hlength, hsame.size]
    rfl
  · -- the data of the free map is behind the two sectors that were marked
    have hdevice := howned.onDevice 0 rfl
    have hpositive : ((0 : Nat) : Int) < (inodeAt s₁'.device 0).length := by
      have hbytes : Bitmap.byteCnt d.size = 4 * ((d.size + 31) / 32) :=
        hcnt ▸ Bitmap.byteCnt_eq (hcnt ▸ hsize)
      rw [hcreated.length_eq, hbytes]
      omega
    obtain ⟨k, hhas⟩ : ∃ k, (inodeAt s₁'.device 0).Has k := ⟨_, hdevice.has_of_lt hpositive⟩
    have hlt := hdevice.lt_of_has hhas
    have hclear := hcreated.fresh k hhas
    rw [hsame.size]
    change 1 < s₁'.device.size
    by_contra hle
    obtain rfl : k = 0 := by omega
    exact absurd (hclear.symm.trans hbit0) (by decide)
  · exact (hcreated.bits 1).mpr (.inl hbit1)
  · rwa [hinode]
  · rw [Area, hinode]
    rcases (hcreated.bits k).mp hbit with hb | hhas
    · have hk' : k < d.size := by
        rw [← hsize₁]
        exact hsame.size ▸ hk
      exact ((hbits k hk').mp hb).elim (fun h => .inr (.inl h)) .inl
    · exact .inr (.inr hhas)
  · rw [hcreate.answers hnil]
    rfl

end

/-- What `do_format` has made when the root directory is there. -/
structure RootCreated (d : Device) (b : Bitmap) : Prop where
  owned : Owned d b {1, 0}
  mapLength : (inodeAt d 0).length = Bitmap.byteCnt d.size
  rootLength : (inodeAt d 1).length = 320
  zeros : d.bytes.load ((inodeAt d 1).at 0) 320 = List.replicate 320 0
  saved : Saved d b
  bits : ∀ k, k < d.size → b.bit k = true → Area d 0 k ∨ Area d 1 k

/-- **`dir_create`** of the root directory. -/
theorem dirCreate_of_mapCreated (hmapped : MapCreated d b) (next : Nat) (answers : List Bool) :
    ∃ s ok, (mounted d b next answers).dirCreate 1 16 = some (s, ok) ∧
      (ok = true → ∃ d' b' answers', s = mounted d' b' next answers' ∧ d'.size = d.size ∧
        RootCreated d' b' ∧ (answers = [] → answers' = [])) := by
  have hvolume := mounted_volume hmapped.owned rfl hmapped.mapLength next answers
  have hreserved : Reserved (mounted d b next answers) {0} 1 := by
    refine ⟨hmapped.lt, hmapped.root.1, ?_⟩
    rintro m rfl (h1 | hhas)
    · exact absurd h1 (by decide)
    · exact hmapped.root.2 hhas
  have hlen : toOff (16 * 20 % unsignedSize) = 320 := by decide
  obtain ⟨s, ok, hcode, hcreate⟩ := hvolume.inodeCreate hreserved (by decide : (0 : Int) ≤ 320)
    (by decide)
  refine ⟨s, ok, by rw [Fs.dirCreate, hlen]; exact hcode, fun hok => ?_⟩
  obtain ⟨hvolume', hcreated⟩ := hcreate.created hok
  have h0 : ¬MapArea (mounted d b next answers) 0 := hvolume.not_mapArea rfl
  have h0' : ¬Area s.device 1 0 := by
    intro harea
    exact hvolume'.owned.apart 1 (.inl rfl) 0 (.inr rfl) (by decide) 0 harea (.inl rfl)
  have hinode : inodeAt s.device 0 = inodeAt d 0 := hcreated.device.inodeAt ⟨h0, h0'⟩
  have hsize : s.device.size = d.size := hcreated.device.size
  refine ⟨s.device, s.freeMap, s.answers, ?_, hsize, ⟨hvolume'.owned, ?_, hcreated.length_eq,
    hcreated.zeros, hcreate.saved (.inr hok) rfl hmapped.saved, fun k hk hbit => ?_⟩,
    hcreate.answers⟩
  · have htable := hcreate.table
    have hfile := hcreate.freeMapFile
    obtain ⟨table, device, freeMap, freeMapFile, answers⟩ := s
    dsimp only at htable hfile hinode ⊢
    rw [htable, hfile, mounted, mounted, hinode]
  · rw [hinode, hmapped.mapLength, hsize]
  · rcases (hcreated.bits k).mp hbit with hb | hhas
    · rcases hmapped.bits k (hsize ▸ hk) hb with rfl | harea
      · exact .inr (.inl rfl)
      · rw [Area, hinode]
        exact .inl harea
    · exact .inr (.inr hhas)

/-- **`free_map_open`**, where nothing is open: the free map is the one that was saved. -/
theorem freeMapOpen_spec {nodes : Set Nat} (hinodes : s.inodes = [])
    (hfiles : s.files = []) (hcnt : s.freeMap.bitCnt = s.device.size)
    (h : Owned s.device b nodes) (h0 : 0 ∈ nodes)
    (hlength : (inodeAt s.device 0).length = Bitmap.byteCnt s.device.size)
    (hsaved : Saved s.device b) (hpos : 0 < s.device.size) :
    (∀ s', s.freeMapOpen = some s' →
      ∃ b', s' = mounted s.device b' s.next s.answers.tail.tail.tail ∧
        b'.bitCnt = s.device.size ∧ ∀ k, k < s.device.size → b'.bit k = b.bit k) ∧
    (s.answers = [] → s.freeMapOpen.isSome = true) := by
  constructor
  · intro s' hcode
    obtain ⟨⟨s₁, f⟩, hopen, hcode⟩ := of_bind hcode
    obtain ⟨rfl, rfl⟩ := openFreeMapFile_of_some hinodes hfiles hpos hopen
    obtain ⟨⟨s₂, ok⟩, hread, hcode⟩ := of_bind hcode
    obtain ⟨_, hok, hcode⟩ := of_bind hcode
    cases hcode
    obtain rfl : ok = true := of_assert hok
    exact bitmapRead_of_some h h0 hlength hcnt hpos hsaved hread
  · intro hnil
    have hopen := openFreeMapFile_eq hinodes hfiles hpos
    rw [if_pos (by rw [hnil]; exact ⟨rfl, rfl⟩), hnil] at hopen
    obtain ⟨s', hread⟩ := bitmapRead_of_memory h h0 hlength hcnt hpos hsaved s.next
    rw [Fs.freeMapOpen, hopen, some_bind]
    simp only [List.tail_nil, hread]
    rfl

/-- Where the root directory has been made, the free map is read again. -/
theorem RootCreated.formatted (h : RootCreated d b) {b' : Bitmap} (hcnt : b'.bitCnt = d.size)
    (hsame : ∀ k, k < d.size → b'.bit k = b.bit k) (next : Nat) (answers : List Bool) :
    Formatted (mounted d b' next answers) := by
  have hcnt₀ := h.owned.bitCnt
  refine ⟨⟨next, rfl⟩, h.owned.withFreeMap (hcnt.trans hcnt₀.symm) fun n hn k hk => ?_, h.mapLength,
    h.rootLength, h.zeros, h.saved.congr (hcnt.trans hcnt₀.symm) fun k hk => ?_, fun k hk hbit => ?_⟩
  · exact (hsame k (h.owned.area_lt hn hk)).trans (h.owned.marked n hn k hk)
  · exact hsame k (hcnt₀ ▸ hk)
  · exact h.bits k hk ((hsame k hk).symm.trans hbit)

/-- **`filesys_init` makes a formatted file system**, if it does not panic. -/
theorem formatted_of_init {device : Device} {words : Nat → BitVec 32} {answers : List Bool} {s : Fs}
    (h : Fs.filesysInit device words answers true = some s) :
    Formatted s ∧ s.device.size = device.size ∧ (answers = [] → s.answers = []) := by
  obtain ⟨s₀, hinit, h⟩ := of_bind h
  obtain ⟨b₀, rfl, hcnt, hsize, hpos, hbit0, hbit1, hbits⟩ := freeMapInit_of_some hinit
  obtain ⟨s₁, hformat, h⟩ := of_bind h
  obtain ⟨s₂, hmap, hformat⟩ := of_bind hformat
  obtain ⟨d, b, next, answers₂, rfl, hd, hmapped, hnil₂⟩ :=
    freeMapCreate_of_some hcnt hsize hpos hbit0 hbit1 hbits hmap
  obtain ⟨⟨s₃, ok⟩, hroot, hformat⟩ := of_bind hformat
  obtain ⟨_, hok, hclose⟩ := of_bind hformat
  obtain ⟨s₃', ok', hroot', hcreated⟩ := dirCreate_of_mapCreated hmapped next answers₂
  cases hroot'.symm.trans hroot
  obtain ⟨d', b', answers₃, rfl, hd', hroot, hnil₃⟩ := hcreated (of_assert hok)
  cases (freeMapClose_of_alone rfl rfl rfl).symm.trans hclose
  have hpos' : 0 < d'.size := by rw [hd', hd]; exact hpos
  obtain ⟨b'', rfl, hcnt'', hsame⟩ := (freeMapOpen_spec
    (s := { mounted d' b' next answers₃ with inodes := [], files := [] }) rfl rfl hroot.owned.bitCnt
    hroot.owned (.inr rfl) hroot.mapLength hroot.saved hpos').1 s h
  refine ⟨hroot.formatted hcnt'' hsame _ _, hd'.trans hd, fun hs => ?_⟩
  have hnil : answers₃ = [] := hnil₃ (hnil₂ (by rw [hs]; rfl))
  rw [hnil]
  rfl

/-! ## Formatting succeeds -/

theorem Bitmap.elemIdx_lt_of_pos {idx : Nat} (hcnt : 0 < b.bitCnt) (hidx : idx < 32) :
    Bitmap.elemIdx idx < b.bits.length := by
  have hcovers := b.covers
  rw [Bitmap.elemIdx]
  omega

theorem freeMapInit_of_memory (hsize : d.size + 31 < unsignedSize) (hpos : 0 < d.size)
    (words : Nat → BitVec 32) : ∃ s, (Fs.boot d []).freeMapInit words = some s := by
  obtain ⟨b, hcreate, hcnt, -⟩ := Bitmap.create_spec words hsize
  have hpos₀ : 0 < b.bitCnt := hcnt ▸ hpos
  obtain ⟨b₁, hmark₁, hset₁⟩ := Bitmap.mark_spec (Bitmap.elemIdx_lt_of_pos hpos₀ (by decide : 0 < 32))
  have hpos₁ : 0 < b₁.bitCnt := hset₁.bitCnt_eq ▸ hpos₀
  obtain ⟨b₂, hmark₂, -⟩ := Bitmap.mark_spec (Bitmap.elemIdx_lt_of_pos hpos₁ (by decide : 1 < 32))
  refine ⟨{ Fs.boot d [] with freeMap := b₂ }, ?_⟩
  simp only [Fs.freeMapInit, Fs.malloc, Fs.boot, some_bind, hcreate, hmark₁, hmark₂]
  rw [assert_of ⟨trivial, .inl trivial⟩]
  rfl

/-- **A file system that is mounted again has the free map it had**, if there is memory. -/
theorem mounted_of_init {nodes : Set Nat} (h : Owned d b nodes) (h0 : 0 ∈ nodes)
    (hlength : (inodeAt d 0).length = Bitmap.byteCnt d.size) (hsaved : Saved d b)
    (words : Nat → BitVec 32) :
    ∃ b', Fs.filesysInit d words [] false = some (mounted d b' 0 []) ∧ b'.bitCnt = d.size ∧
      ∀ k, k < d.size → b'.bit k = b.bit k := by
  have hpos : 0 < d.size := h.lt 0 h0
  obtain ⟨s₀, hinit⟩ := freeMapInit_of_memory h.size_lt hpos words
  obtain ⟨b₀, rfl, hcnt, -⟩ := freeMapInit_of_some hinit
  obtain ⟨hspec, hsome⟩ := freeMapOpen_spec (s := { Fs.boot d [] with freeMap := b₀ }) rfl rfl hcnt h
    h0 hlength hsaved hpos
  obtain ⟨s, hopen⟩ := Option.isSome_iff_exists.mp (hsome rfl)
  obtain ⟨b', rfl, hcnt', hsame⟩ := hspec s hopen
  refine ⟨b', ?_, hcnt', hsame⟩
  simp only [Fs.filesysInit, hinit, some_bind, Bool.false_eq_true, if_false]
  exact hopen

/-- **`bitmap_read` undoes `bitmap_write`**, whatever the bits behind the last one are. -/
theorem Fs.bitmapRead_bitmapWrite {f : Nat} {file : File} {i : Inode} {b' : Bitmap}
    (hf : s.file f = some file) (hi : s.inode file.inode = some i) (hd : OnDevice s.device i.data)
    (hallowed : i.denyWriteCnt = 0) (hlength : i.data.length = Bitmap.byteCnt s.freeMap.bitCnt)
    (hcnt : s.freeMap.bitCnt + 31 < unsignedSize) (hpos : 0 < s.freeMap.bitCnt)
    (hnil : s.answers = []) (hb' : b'.bitCnt = s.freeMap.bitCnt) :
    ∃ s' s'', s.bitmapWrite f = some (s', true) ∧
      Fs.bitmapRead { s' with freeMap := b' } f = some (s'', true) ∧
      s''.freeMap.bitCnt = s.freeMap.bitCnt ∧
      ∀ k, k < s.freeMap.bitCnt → s''.freeMap.bit k = s.freeMap.bit k := by
  obtain ⟨w, hwrite, -, hall⟩ := Fs.bitmapWrite_spec hf hi hd hallowed hlength hcnt
  obtain rfl := hall (by rw [hnil]; rfl)
  rw [decide_eq_true rfl, hnil] at hwrite
  let bytes := s.freeMap.bytes.take (Bitmap.byteCnt s.freeMap.bitCnt)
  have hbytes : bytes.length = Bitmap.byteCnt s.freeMap.bitCnt := by
    rw [List.length_take]
    exact Nat.min_eq_left (Bitmap.byteCnt_le_length hcnt)
  let d : Device := { s.device with bytes := s.device.bytes.store (i.data.at 0) bytes }
  have hd' : OnDevice d i.data := ⟨hd.length_nonneg, hd.length_lt, hd.inside, hd.size_lt⟩
  obtain ⟨b'', hwith, hcnt'', hsame⟩ := Bitmap.withBytes_spec hcnt hb'
  obtain ⟨r, hr, hread⟩ := Fs.bitmapRead_spec
    (s := { s with device := d, freeMap := b', answers := [] }) hf hi hd' (hb' ▸ hlength) (hb' ▸ hpos)
  obtain rfl := hr rfl
  have hload : d.bytes.load (i.data.at 0) (Bitmap.byteCnt b'.bitCnt) = bytes := by
    rw [hb', ← hbytes]
    exact Memory.load_store _ _ _
  refine ⟨{ s with device := d, answers := [] }, { s with device := d, freeMap := b'', answers := [] },
    hwrite, ?_, hcnt'', hsame⟩
  rw [hread, hload, hwith, Option.bind_some, decide_eq_true rfl]
  rfl

end Format
end Pintos.Filesys
