import Pintos.ElfLoader
import Pintos.SectorOwnership

/-!
# A program in memory

What `load` leaves in the address space, for every file.  The file is read through the file
system (`Reading`), and every part of `load` keeps what has been loaded before (`Keeps`): a page is
read and filled up with zeros (`loadPage_spec`), a segment is the pages of its loop
(`loadPages_spec`), and the program is the segments of its headers (`loadHeaders_spec`).

**`load` maps what the headers say, inside user space** (`load_maps_segments`).
-/

namespace Pintos

open Filesys (Fs File Ordered leWord_lt toOff wrap)
open CString Space

/-! ## Reading the file -/

/-- A file is open, has the given bytes, and is at a position. -/
structure Reading (fs : Fs) (f : Nat) (content : List Byte) (pos : Nat) : Prop where
  ordered : ∃ nodes, Ordered fs nodes []
  user : fs.freeMapFile ≠ some f
  file : ∃ file i, fs.file f = some file ∧ file.pos = pos ∧ fs.inode file.inode = some i ∧
    i.data.contents fs.device = content

section Reading
variable {fs : Fs} {f pos : Nat} {content : List Byte}

theorem Reading.length_lt (h : Reading fs f content pos) : content.length < 2147483648 := by
  obtain ⟨nodes, hordered⟩ := h.ordered
  obtain ⟨file, i, -, -, hi, rfl⟩ := h.file
  have hd := hordered.volume.onDevice (Objects.mem_of_get hi)
  have hlength := Filesys.length_contents hd
  have hlt := hd.length_lt
  omega

theorem Reading.fileLength (h : Reading fs f content pos) :
    fs.fileLength f = some (content.length : Int) := by
  obtain ⟨nodes, hordered⟩ := h.ordered
  obtain ⟨file, i, hf, -, hi, rfl⟩ := h.file
  rw [Filesys.length_contents (hordered.volume.onDevice (Objects.mem_of_get hi))]
  simp only [Fs.fileLength, hf, some_bind, hi]

/-- The file that is moved to another position. -/
theorem file_setPos {fs : Fs} {file : File} (hf : fs.file f = some file) (g : File → Nat) :
    (fs.setFile f fun file => { file with pos := g file }).file f
      = some { file with pos := g file } :=
  Objects.get_modify_self (f := fun file : File => { file with pos := g file }) (fun _ => rfl) hf

/-- **`file_seek`.** -/
theorem Reading.fileSeek (h : Reading fs f content pos) {newPos : Int} (h0 : 0 ≤ newPos) :
    ∃ fs', fs.fileSeek f newPos = some fs' ∧ Reading fs' f content newPos.toNat := by
  obtain ⟨nodes, hordered⟩ := h.ordered
  obtain ⟨file, i, hf, -, hi, hcontent⟩ := h.file
  refine ⟨_, ?_, ⟨nodes, hordered.setPos f fun _ => newPos.toNat⟩, h.user,
    { file with pos := newPos.toNat }, i, file_setPos hf _, rfl, hi, hcontent⟩
  simp only [Fs.fileSeek, hf, assert_of h0, some_bind]

/-- **`file_read`** returns bytes from the position on, and moves it behind them. -/
theorem Reading.fileRead (h : Reading fs f content pos) (size : Nat) :
    ∃ fs' bytes, fs.fileRead f size = some (fs', bytes) ∧ bytes.length ≤ size ∧
      bytes = (content.drop pos).take bytes.length ∧
      Reading fs' f content (pos + bytes.length) := by
  obtain ⟨nodes, hordered⟩ := h.ordered
  obtain ⟨file, i, hf, rfl, hi, rfl⟩ := h.file
  obtain ⟨r, hcode, hordered', hle, -⟩ := hordered.fileRead hf hi size
  refine ⟨_, _, hcode, ?_, ?_, ⟨nodes, ?_⟩, h.user, { file with pos := file.pos + r }, i,
    file_setPos hf _, ?_, hi, rfl⟩
  · rw [Memory.length_load]
    rw [Filesys.InodeDisk.available] at hle
    omega
  · rw [Memory.length_load, Filesys.take_drop_contents hle]
  · exact hordered'
  · rw [Memory.length_load]

theorem Reading.fileClose (h : Reading fs f content pos) : ∃ fs', fs.fileClose f = some fs' := by
  obtain ⟨nodes, hordered⟩ := h.ordered
  obtain ⟨file, i, hf, -, hi, -⟩ := h.file
  obtain ⟨fs', nodes', hcode, -⟩ := hordered.fileClose hf h.user hi
  exact ⟨_, hcode⟩

/-- A file that has just been opened is at its beginning. -/
theorem reading_of_filesysOpen {fs' : Fs} {nodes : Set Nat} {str : List Byte}
    (h : Ordered fs nodes []) (h' : Ordered fs' nodes [])
    (hopened : Filesys.FileOpened fs str (some f) fs') :
    ∃ k, k < 16 ∧ Fs.Names fs.device 1 k str ∧ Reading fs' f
      (Filesys.contents fs.device (Filesys.entrySector (Filesys.entryAt fs.device 1 k))) 0 := by
  obtain ⟨b, k, i, hfiles, hk, hnames, hi, hsector⟩ := hopened.done f rfl
  have hf : fs'.file f = some ⟨f, b, 0, false⟩ := by
    rw [Fs.file, hfiles]
    exact Objects.get_cons_self _ _
  obtain ⟨-, hdata⟩ := h'.volume.opened i (Objects.mem_of_get hi)
  refine ⟨k, hk, hnames, ⟨nodes, h'⟩, fun hmap => ?_, ⟨f, b, 0, false⟩, i, hf, rfl, hi, ?_⟩
  · -- the inode is in the directory, so that it is not the free map's
    obtain ⟨-, -, file, j, hfile, hj, hzero⟩ := h'.volume.map f hmap
    obtain rfl : file = ⟨f, b, 0, false⟩ := Option.some.inj (hfile.symm.trans hf)
    obtain rfl : j = i := Option.some.inj (hj.symm.trans hi)
    exact (h.directory.entry k hk hnames.1).ne_zero (hsector.symm.trans hzero)
  · rw [Filesys.InodeDisk.contents, hdata, hsector, hopened.device]
    rfl

end Reading

/-! ## Pages -/

/-- The byte with the number `x` of some pages, of which so many bytes are in the file from `pos`
on and the others are zero. -/
def segmentByte (content : List Byte) (pos readBytes x : Nat) : Option Byte :=
  if x < readBytes then content[pos + x]? else some 0

/-- So many pages from `upage` on hold bytes of a file and zeros. -/
def HoldsPages (s : Space) (pd upage cnt : Nat) (content : List Byte) (pos readBytes : Nat)
    (writable : Bool) : Prop :=
  ∀ x, x < cnt * pgsize → ∃ byte, segmentByte content pos readBytes x = some byte ∧
    s.byteAt pd (upage + x) = some (byte, writable)

/-- **The address space holds a segment** of the file. -/
structure HoldsSegment (s : Space) (pd : Nat) (content : List Byte) (phdr : Phdr) : Prop where
  high : phdr.vaddr + phdr.memsz ≤ physBase
  bytes : ∀ i, i < phdr.memsz → ∃ byte,
    (if i < phdr.filesz then content[phdr.offset + i]? = some byte else byte = 0) ∧
    s.byteAt pd (phdr.vaddr + i) = some (byte, phdr.writable)

/-- The header of a file. -/
def ehdrOf (content : List Byte) : Ehdr :=
  Ehdr.ofBytes (content.take ehdrSize)

/-- The program header with the number `i`, of those from `ofs` on. -/
def phdrAt (content : List Byte) (ofs i : Nat) : Phdr :=
  Phdr.ofBytes ((content.drop (ofs + phdrSize * i)).take phdrSize)

section Pages
variable {pd pos upage cnt readBytes : Nat} {content : List Byte} {writable : Bool} {s s' : Space}

/-- Pages stay loaded. -/
theorem HoldsPages.mono (h : HoldsPages s pd upage cnt content pos readBytes writable)
    (hgrows : Grows s s' pd)
    (hhigh : upage + cnt * pgsize ≤ physBase) :
    HoldsPages s' pd upage cnt content pos readBytes writable := by
  intro x hx
  obtain ⟨byte, hbyte, hat⟩ := h x hx
  exact ⟨byte, hbyte, hgrows.byteAt (by omega) hat⟩

/-- One page, and those behind it. -/
theorem HoldsPages.cons {n : Nat} (hn : n = if readBytes < pgsize then readBytes else pgsize)
    (h : HoldsPages s pd upage 1 content pos n writable)
    (h' : HoldsPages s pd (upage + pgsize) cnt content (pos + n) (readBytes - n) writable) :
    HoldsPages s pd upage (cnt + 1) content pos readBytes writable := by
  intro x hx
  rw [Nat.add_mul, Nat.one_mul] at hx
  by_cases hlt : x < pgsize
  · obtain ⟨byte, hbyte, hat⟩ := h x (by rwa [Nat.one_mul])
    refine ⟨byte, ?_, hat⟩
    have hiff : x < n ↔ x < readBytes := by
      rw [hn]
      split <;> omega
    rw [segmentByte, if_congr hiff rfl rfl] at hbyte
    exact hbyte
  · obtain ⟨byte, hbyte, hat⟩ := h' (x - pgsize) (by omega)
    have haddr : upage + pgsize + (x - pgsize) = upage + x := by omega
    rw [haddr] at hat
    refine ⟨byte, ?_, hat⟩
    rw [segmentByte] at hbyte ⊢
    by_cases hread : x < readBytes
    · have hsize : n = pgsize := by
        rw [hn, if_neg (by omega)]
      have hpos : pos + n + (x - pgsize) = pos + x := by omega
      rw [if_pos (by omega), hpos] at hbyte
      rw [if_pos hread]
      exact hbyte
    · rw [if_neg (by rw [hn]; split <;> omega)] at hbyte
      rw [if_neg hread]
      exact hbyte

theorem HoldsSegment.mono {phdr : Phdr} (h : HoldsSegment s pd content phdr)
    (hgrows : Grows s s' pd) : HoldsSegment s' pd content phdr := by
  refine ⟨h.high, fun i hi => ?_⟩
  obtain ⟨byte, hbyte, hat⟩ := h.bytes i hi
  exact ⟨byte, hbyte, hgrows.byteAt (Nat.lt_of_lt_of_le (Nat.add_lt_add_left hi _) h.high) hat⟩

/-- A segment is in its pages. -/
theorem ValidSegment.holdsSegment {phdr : Phdr} {length : Nat} (h : ValidSegment phdr length)
    (hpages : HoldsPages s pd (pageStart phdr.vaddr) phdr.pages content (pageStart phdr.offset)
      phdr.readBytes phdr.writable) : HoldsSegment s pd content phdr := by
  refine ⟨Nat.le_of_lt h.high, fun i hi => ?_⟩
  have hbounds := h.bounds.2.2
  have hvaddr := pageStart_add_pgOfs phdr.vaddr
  have hoffset := pageStart_add_pgOfs phdr.offset
  have haligned := h.aligned
  obtain ⟨byte, hbyte, hat⟩ := hpages (pgOfs phdr.vaddr + i) (by omega)
  have haddr : pageStart phdr.vaddr + (pgOfs phdr.vaddr + i) = phdr.vaddr + i := by omega
  have hpos : pageStart phdr.offset + (pgOfs phdr.vaddr + i) = phdr.offset + i := by omega
  rw [haddr] at hat
  rw [segmentByte, hpos] at hbyte
  refine ⟨byte, ?_, hat⟩
  by_cases hfile : i < phdr.filesz
  · have hread : phdr.readBytes = pgOfs phdr.vaddr + phdr.filesz := if_pos (Nat.zero_lt_of_lt hfile)
    rw [if_pos (by omega)] at hbyte
    rw [if_pos hfile]
    exact hbyte
  · have hread : ¬pgOfs phdr.vaddr + i < phdr.readBytes := by
      rw [Phdr.readBytes]
      split <;> omega
    rw [if_neg hread] at hbyte
    rw [if_neg hfile]
    exact (Option.some.inj hbyte).symm

end Pages

namespace Process

/-- **What every part of `load` keeps**: the address space is in order, the file is open, and
what has been loaded stays. -/
structure Keeps (ramPages initPageDir : Nat) (p p' : Process) (f pd : Nat) (content : List Byte) :
    Prop where
  space : p'.space.Ok ramPages initPageDir pd
  file : ∃ pos, Reading p'.fs f content pos
  pagedir : p'.pagedir = p.pagedir
  grows : Grows p.space p'.space pd

section Load
variable {ramPages initPageDir f pd pos upage : Nat} {content : List Byte} {p p' p'' : Process}

theorem Keeps.trans (h : Keeps ramPages initPageDir p p' f pd content)
    (h' : Keeps ramPages initPageDir p' p'' f pd content) :
    Keeps ramPages initPageDir p p'' f pd content :=
  ⟨h'.space, h'.file, h'.pagedir.trans h.pagedir, h.grows.trans h'.grows⟩

/-- What is in a page that has been read, and filled up with zeros. -/
theorem frame_of_read (m : Memory) (kpage : Nat) {n x : Nat} {bytes : List Byte}
    (hbytes : bytes = (content.drop pos).take n) (hlength : bytes.length = n) (hx : x < pgsize) :
    segmentByte content pos n x =
      some ((m.store kpage bytes).fill ⟨kpage + n, pgsize - n⟩ 0 (kpage + x)) := by
  rw [segmentByte]
  by_cases hlt : x < n
  · have hout : kpage + x ∉ (⟨kpage + n, pgsize - n⟩ : Extent) := fun hmem =>
      Nat.not_lt.mpr hmem.1 (Nat.add_lt_add_left hlt kpage)
    have hget : bytes[x]? = content[pos + x]? := by
      rw [hbytes, List.getElem?_take_of_lt hlt, List.getElem?_drop]
    rw [if_pos hlt, Memory.fill_of_notMem hout, Memory.store_apply_of_le (Nat.le_add_right _ _)
      (by omega), Nat.add_sub_cancel_left, ← hget, List.getD_eq_getElem _ _ (by omega),
      List.getElem?_eq_getElem (by omega)]
  · have hin : kpage + x ∈ (⟨kpage + n, pgsize - n⟩ : Extent) := by
      refine ⟨?_, ?_⟩
      · change kpage + n ≤ kpage + x
        omega
      · change kpage + x < kpage + n + (pgsize - n)
        omega
    rw [if_neg hlt, Memory.fill, if_pos hin]

theorem pgNo_add (hofs : pgOfs upage = 0) {x : Nat} (hx : x < pgsize) :
    pgNo (upage + x) = pgNo upage ∧ pgOfs (upage + x) = x := by
  rw [pgOfs, pgsize] at hofs
  rw [pgsize] at hx
  rw [pgNo, pgNo, pgOfs, pgsize]
  omega

section
variable (hspace : p.space.Ok ramPages initPageDir pd) (hfile : Reading p.fs f content pos)
include hspace hfile

/-- **A page is loaded.** -/
theorem loadPage_spec (hofs : pgOfs upage = 0) (hlow : pgsize ≤ upage) (hhigh : upage < physBase)
    {n : Nat} (hn : n ≤ pgsize) (writable : Bool) :
    ∃ p' ok, p.loadPage ramPages initPageDir f pd upage n (pgsize - n) writable = some (p', ok) ∧
      Keeps ramPages initPageDir p p' f pd content ∧
      (ok = true → Reading p'.fs f content (pos + n) ∧
        HoldsPages p'.space pd upage 1 content pos n writable) := by
  obtain ⟨hspace₁, hgrows₁, hspare⟩ := hspace.pallocGetPage
  rw [loadPage]
  generalize p.space.pallocGetPage = got at hspace₁ hgrows₁ hspare
  obtain ⟨space₁, kpage⟩ := got
  cases kpage with
  | none =>
    exact ⟨_, false, rfl, ⟨hspace₁, ⟨pos, hfile⟩, rfl, hgrows₁⟩, (absurd · (by decide))⟩
  | some kpage =>
    have hspare := hspare kpage rfl
    obtain ⟨fs', bytes, hread, hle, hbytes, hfile'⟩ := hfile.fileRead n
    simp only [hread, some_bind]
    -- the page is not in the image yet, whatever is written to it
    have hstored : ∀ x, x ∉ (⟨kpage, pgsize⟩ : Extent) →
        space₁.frames.store kpage bytes x = space₁.frames x := fun x hx =>
      Memory.store_of_notMem fun hmem => hx ⟨hmem.1, Nat.lt_of_lt_of_le hmem.2
        (Nat.add_le_add_left (Nat.le_trans hle hn) kpage)⟩
    by_cases hshort : bytes.length ≠ n
    · obtain ⟨hspace₂, hspare₂, hgrows₂⟩ := hspace₁.withFrames hspare hstored
      obtain ⟨hspace₃, hgrows₃⟩ := hspace₂.pallocFreePage hspare₂
      rw [if_pos hshort]
      exact ⟨_, false, rfl, ⟨hspace₃, ⟨_, hfile'⟩, rfl, (hgrows₁.trans hgrows₂).trans hgrows₃⟩,
        (absurd · (by decide))⟩
    rw [not_not] at hshort
    rw [if_neg (not_not_intro hshort)]
    have hfilled : ∀ x, x ∉ (⟨kpage, pgsize⟩ : Extent) →
        (space₁.frames.store kpage bytes).fill ⟨kpage + n, pgsize - n⟩ 0 x = space₁.frames x := by
      intro x hx
      refine (Memory.fill_of_notMem fun hmem => hx ⟨?_, ?_⟩).trans (hstored x hx)
      · exact Nat.le_trans (Nat.le_add_right kpage n) hmem.1
      · refine Nat.lt_of_lt_of_le hmem.2 ?_
        change kpage + n + (pgsize - n) ≤ kpage + pgsize
        omega
    obtain ⟨hspace₂, hspare₂, hgrows₂⟩ := hspace₁.withFrames hspare hfilled
    obtain ⟨space₃, ok, hcode, hspace₃, hgrows₃, hfail, hdone⟩ :=
      hspace₂.installPage hspare₂ hofs hlow hhigh writable
    rw [hcode]
    have hgrows := (hgrows₁.trans hgrows₂).trans hgrows₃
    cases ok with
    | false =>
      obtain ⟨hspace₄, hgrows₄⟩ := hspace₃.pallocFreePage (hfail rfl)
      exact ⟨_, false, rfl, ⟨hspace₄, ⟨_, hfile'⟩, rfl, hgrows.trans hgrows₄⟩, (absurd · (by decide))⟩
    | true =>
      refine ⟨_, true, rfl, ⟨hspace₃, ⟨_, hfile'⟩, rfl, hgrows⟩, fun _ => ⟨hshort ▸ hfile', ?_⟩⟩
      intro x hx
      rw [Nat.one_mul] at hx
      obtain ⟨hno, hat⟩ := pgNo_add hofs hx
      rw [hshort] at hbytes
      refine ⟨_, frame_of_read space₁.frames kpage hbytes hshort hx, ?_⟩
      have hbyte := byteAt_of_image (upage + x) (hno.symm ▸ hdone rfl)
      rwa [hat] at hbyte

/-- **The loop of `load_segment`.**  Its sums and differences do not wrap. -/
theorem loadPages_spec (cnt : Nat) {left : Nat} (readBytes zeroBytes : Nat) (writable : Bool)
    (hofs : pgOfs upage = 0) (hlow : pgsize ≤ upage) (hhigh : upage + cnt * pgsize ≤ physBase)
    (hbytes : readBytes + zeroBytes = cnt * pgsize) (hleft : cnt < left) :
    ∃ p' ok, (∀ strict, loadPages ramPages initPageDir strict f pd writable left p upage readBytes
        zeroBytes = some (p', ok)) ∧
      Keeps ramPages initPageDir p p' f pd content ∧
      (ok = true → HoldsPages p'.space pd upage cnt content pos readBytes writable) := by
  induction cnt generalizing p pos upage left readBytes zeroBytes with
  | zero =>
    obtain ⟨left, rfl⟩ := Nat.exists_eq_add_one.mpr hleft
    refine ⟨p, true, fun strict => ?_, ⟨hspace, ⟨pos, hfile⟩, rfl, Grows.refl _ _⟩, fun _ x hx => ?_⟩
    · rw [loadPages, if_neg (by omega)]
    · omega
  | succ cnt ih =>
    obtain ⟨left, rfl⟩ := Nat.exists_eq_add_one.mpr (Nat.zero_lt_of_lt hleft)
    rw [Nat.add_mul, Nat.one_mul] at hbytes hhigh
    have hpos : 0 < pgsize := by decide
    obtain ⟨n, hn⟩ : ∃ n, n = if readBytes < pgsize then readBytes else pgsize := ⟨_, rfl⟩
    have hle : n ≤ pgsize ∧ n ≤ readBytes ∧ pgsize - n ≤ zeroBytes := by
      rw [hn]
      split <;> omega
    have hbase : physBase < unsignedSize := by decide
    obtain ⟨p₁, ok, hcode, hkeeps, hdone⟩ := loadPage_spec hspace hfile hofs hlow
      (by omega) hle.1 writable
    have huint : ∀ {a b : Nat}, b ≤ a → a ≤ physBase → ∀ strict,
        uint32 strict ((a : Int) - b) = some (a - b) := fun h ha strict => by
      rw [← Int.natCast_sub h, uint32_natCast (by omega)]
    have hzero := huint hle.1 (by decide)
    have hread := huint hle.2.1 (by omega)
    have hrest := huint hle.2.2 (by omega)
    cases ok with
    | false =>
      refine ⟨p₁, false, fun strict => ?_, hkeeps, (absurd · (by decide))⟩
      rw [loadPages, if_pos (by omega)]
      simp only [← hn, hzero, hcode, some_bind]
    | true =>
      obtain ⟨hfile₁, hpage⟩ := hdone rfl
      have hnext : pgOfs (upage + pgsize) = 0 := by
        rw [pgOfs, Nat.add_mod_right]
        exact hofs
      obtain ⟨p₂, ok, hcode₂, hkeeps₂, hdone₂⟩ := ih hkeeps.space hfile₁
        (readBytes - n) (zeroBytes - (pgsize - n)) hnext (by omega) (by omega)
        (by omega) (Nat.lt_of_succ_lt_succ hleft)
      refine ⟨p₂, ok, fun strict => ?_, hkeeps.trans hkeeps₂, fun hok => ?_⟩
      · rw [loadPages, if_pos (by omega)]
        simp only [← hn, hzero, hcode, hread, hrest, some_bind, Nat.mod_eq_of_lt (show upage +
          pgsize < unsignedSize by omega)]
        exact hcode₂ strict
      · refine .cons hn (hpage.mono hkeeps₂.grows (by omega)) (hdone₂ hok)

/-- **`load_segment`**, of a segment that has been accepted: no assertion fails. -/
theorem loadSegment_spec {phdr : Phdr} (h : ValidSegment phdr content.length) :
    ∃ p' ok, (∀ strict, p.loadSegment ramPages initPageDir strict f pd
        (toOff (pageStart phdr.offset)) (pageStart phdr.vaddr) phdr.readBytes
        (phdr.pages * pgsize - phdr.readBytes) phdr.writable = some (p', ok)) ∧
      Keeps ramPages initPageDir p p' f pd content ∧
      (ok = true → HoldsSegment p'.space pd content phdr) := by
  obtain ⟨hlow, hhigh, -⟩ := h.bounds
  have hread := h.readBytes_le
  have hbytes : phdr.readBytes + (phdr.pages * pgsize - phdr.readBytes) = phdr.pages * pgsize :=
    Nat.add_sub_of_le hread
  have hsum : ∀ strict, uint32 strict ((phdr.readBytes : Int) +
      (phdr.pages * pgsize - phdr.readBytes : Nat)) = some (phdr.pages * pgsize) := fun strict => by
    have hbase : physBase < unsignedSize := by decide
    rw [← Int.natCast_add, hbytes, uint32_natCast (by omega)]
  have hofs : toOff (pageStart phdr.offset) = (pageStart phdr.offset : Nat) := by
    have hlt := hfile.length_lt
    have hinside := h.inside
    have hle := pageStart_add_pgOfs phdr.offset
    rw [toOff, if_pos (by omega)]
  have hmod : ((pageStart phdr.offset : Nat) : Int).tmod pgsize = 0 := by
    rw [← Int.ofNat_tmod]
    exact congrArg Int.ofNat (pgOfs_pageStart phdr.offset)
  obtain ⟨fs', hseek, hfile'⟩ := hfile.fileSeek (Int.natCast_nonneg (pageStart phdr.offset))
  rw [Int.toNat_natCast] at hfile'
  obtain ⟨p', ok, hcode, hkeeps, hdone⟩ := loadPages_spec (p := { p with fs := fs' }) hspace hfile'
    phdr.pages phdr.readBytes (phdr.pages * pgsize - phdr.readBytes) phdr.writable
    (pgOfs_pageStart phdr.vaddr) hlow hhigh hbytes (Nat.lt_succ_self phdr.pages)
  refine ⟨p', ok, fun strict => ?_, ⟨hkeeps.space, hkeeps.file, hkeeps.pagedir, hkeeps.grows⟩,
    fun hok => h.holdsSegment (hdone hok)⟩
  have hcnt : phdr.pages * pgsize / pgsize = phdr.pages := Nat.mul_div_cancel _ (by decide)
  simp only [loadSegment, hsum, hofs, hcnt, assert_of (Nat.mul_mod_left phdr.pages pgsize),
    assert_of (pgOfs_pageStart phdr.vaddr), assert_of hmod, hseek, some_bind, hcode]

/-- **The case `PT_LOAD`.** -/
theorem loadPhdr_spec (phdr : Phdr) (hvaddr : phdr.vaddr < unsignedSize)
    (hmemsz : phdr.memsz < unsignedSize) :
    ∃ p' ok, (∀ strict, p.loadPhdr ramPages initPageDir strict f pd phdr = some (p', ok)) ∧
      Keeps ramPages initPageDir p p' f pd content ∧
      (ok = true → HoldsSegment p'.space pd content phdr) := by
  simp only [loadPhdr, hfile.fileLength, some_bind]
  by_cases hvalid : validateSegment phdr content.length = true
  · have h := (validateSegment_iff hfile.length_lt hvaddr hmemsz).mp hvalid
    simp only [if_pos hvalid, h.segmentBytes_eq, some_bind]
    exact loadSegment_spec hspace hfile h
  · simp only [if_neg hvalid]
    exact ⟨p, false, fun _ => rfl, ⟨hspace, ⟨pos, hfile⟩, rfl, Grows.refl _ _⟩,
      (absurd · (by decide))⟩

/-- **The loop over the program headers.** -/
theorem loadHeaders_spec (left : Nat) (fileOfs : Int) :
    ∃ p' ok, (∀ strict, loadHeaders ramPages initPageDir strict f pd left p fileOfs
        = some (p', ok)) ∧
      Keeps ramPages initPageDir p p' f pd content ∧
      (ok = true → ∀ i, i < left → 0 ≤ fileOfs ∧
        ((phdrAt content fileOfs.toNat i).kind = .loaded →
          HoldsSegment p'.space pd content (phdrAt content fileOfs.toNat i))) := by
  induction left generalizing p pos fileOfs with
  | zero =>
    exact ⟨p, true, fun _ => rfl, ⟨hspace, ⟨pos, hfile⟩, rfl, Grows.refl _ _⟩,
      fun _ i hi => absurd hi (Nat.not_lt_zero i)⟩
  | succ left ih =>
    simp only [loadHeaders, hfile.fileLength, some_bind]
    by_cases hout : fileOfs < 0 ∨ fileOfs > content.length
    · simp only [if_pos hout]
      exact ⟨p, false, fun _ => rfl, ⟨hspace, ⟨pos, hfile⟩, rfl, Grows.refl _ _⟩,
        (absurd · (by decide))⟩
    have hnonneg : 0 ≤ fileOfs := by omega
    obtain ⟨fs₁, hseek, hfile₁⟩ := hfile.fileSeek hnonneg
    obtain ⟨fs₂, bytes, hread, -, hbytes, hfile₂⟩ := hfile₁.fileRead phdrSize
    simp only [if_neg hout, hseek, hread, some_bind]
    have hkeeps : Keeps ramPages initPageDir p { p with fs := fs₂ } f pd content :=
      ⟨hspace, ⟨_, hfile₂⟩, rfl, Grows.refl _ _⟩
    by_cases hshort : bytes.length ≠ phdrSize
    · simp only [if_pos hshort]
      exact ⟨_, false, fun _ => rfl, hkeeps, (absurd · (by decide))⟩
    rw [not_not] at hshort
    rw [hshort] at hbytes hfile₂
    have hphdr : Phdr.ofBytes bytes = phdrAt content fileOfs.toNat 0 := by
      rw [phdrAt, Nat.mul_zero, Nat.add_zero, ← hbytes]
    -- the header is inside the file, so that the next offset does not overflow
    have hnext : wrap (fileOfs + phdrSize) = fileOfs + phdrSize := by
      have hlength := congrArg List.length hbytes
      have hlt := hfile.length_lt
      rw [hshort, List.length_take, List.length_drop] at hlength
      exact Filesys.toOff_ofOff (by omega) (by omega)
    have hat : ∀ i, phdrAt content (fileOfs + phdrSize).toNat i =
        phdrAt content fileOfs.toNat (i + 1) := fun i => by
      rw [phdrAt, phdrAt, Int.toNat_add hnonneg (Int.natCast_nonneg _), Int.toNat_natCast,
        Nat.mul_succ, Nat.add_assoc, Nat.add_comm phdrSize]
    simp only [if_neg (not_not_intro hshort), hnext, hphdr]
    cases hkind : (phdrAt content fileOfs.toNat 0).kind with
    | ignored =>
      obtain ⟨p', ok, hcode, hkeeps', hdone⟩ := ih hkeeps.space hfile₂ (fileOfs + phdrSize)
      refine ⟨p', ok, hcode, hkeeps.trans hkeeps', fun hok i hi => ⟨hnonneg, fun hload => ?_⟩⟩
      cases i with
      | zero => exact absurd (hkind.symm.trans hload) (by decide)
      | succ i =>
        rw [← hat] at hload ⊢
        exact (hdone hok i (Nat.lt_of_succ_lt_succ hi)).2 hload
    | refused =>
      exact ⟨_, false, fun _ => rfl, hkeeps, (absurd · (by decide))⟩
    | loaded =>
      obtain ⟨p₃, ok₃, hcode₃, hkeeps₃, hdone₃⟩ := loadPhdr_spec hkeeps.space hfile₂
        (phdrAt content fileOfs.toNat 0) (leWord_lt _) (leWord_lt _)
      simp only [hcode₃, some_bind]
      cases ok₃ with
      | false => exact ⟨p₃, false, fun _ => rfl, hkeeps.trans hkeeps₃, (absurd · (by decide))⟩
      | true =>
        obtain ⟨pos₃, hfile₃⟩ := hkeeps₃.file
        obtain ⟨p', ok, hcode, hkeeps', hdone⟩ :=
          ih hkeeps₃.space hfile₃ (fileOfs + phdrSize)
        refine ⟨p', ok, hcode, (hkeeps.trans hkeeps₃).trans hkeeps', fun hok i hi =>
          ⟨hnonneg, fun hload => ?_⟩⟩
        cases i with
        | zero => exact (hdone₃ rfl).mono hkeeps'.grows
        | succ i =>
          rw [← hat] at hload ⊢
          exact (hdone hok i (Nat.lt_of_succ_lt_succ hi)).2 hload

/-- **`setup_stack`.** -/
theorem setupStack_spec :
    ∃ p' ok, p.setupStack ramPages initPageDir pd = some (p', ok) ∧
      Keeps ramPages initPageDir p p' f pd content := by
  obtain ⟨hspace₁, hgrows₁, hspare⟩ := hspace.pallocGetPage
  rw [setupStack]
  generalize p.space.pallocGetPage = got at hspace₁ hgrows₁ hspare
  obtain ⟨space₁, kpage⟩ := got
  cases kpage with
  | none => exact ⟨_, false, rfl, hspace₁, ⟨pos, hfile⟩, rfl, hgrows₁⟩
  | some kpage =>
    have hfilled : ∀ x, x ∉ (⟨kpage, pgsize⟩ : Extent) →
        space₁.frames.fill ⟨kpage, pgsize⟩ 0 x = space₁.frames x := fun x hx =>
      Memory.fill_of_notMem hx
    obtain ⟨hspace₂, hspare₂, hgrows₂⟩ := hspace₁.withFrames (hspare kpage rfl) hfilled
    obtain ⟨space₃, ok, hcode, hspace₃, hgrows₃, hfail, -⟩ := hspace₂.installPage hspare₂
      (show pgOfs (physBase - pgsize) = 0 by decide) (by decide) (by decide) true
    simp only [hcode, some_bind]
    have hgrows := (hgrows₁.trans hgrows₂).trans hgrows₃
    cases ok with
    | false =>
      obtain ⟨hspace₄, hgrows₄⟩ := hspace₃.pallocFreePage (hfail rfl)
      exact ⟨_, false, rfl, hspace₄, ⟨pos, hfile⟩, rfl, hgrows.trans hgrows₄⟩
    | true => exact ⟨_, true, rfl, hspace₃, ⟨pos, hfile⟩, rfl, hgrows⟩

end

/-- **`load`, once the file is open.** -/
theorem loadFile_spec (name : CharPtr) (hspace : p.space.Ok ramPages initPageDir pd)
    (hfile : Reading p.fs f content 0) :
    ∃ p' r, (∀ strict, p.loadFile ramPages initPageDir strict f pd name = some (p', r)) ∧
      Keeps ramPages initPageDir p p' f pd content ∧
      (r.isSome = true → ∀ i, i < (ehdrOf content).phnum →
        (phdrAt content (ehdrOf content).phoff i).kind = .loaded →
          HoldsSegment p'.space pd content (phdrAt content (ehdrOf content).phoff i)) := by
  obtain ⟨fs₁, bytes, hread, -, hbytes, hfile₁⟩ := hfile.fileRead ehdrSize
  simp only [loadFile, hread, some_bind]
  have hkeeps : Keeps ramPages initPageDir p { p with fs := fs₁ } f pd content :=
    ⟨hspace, ⟨_, hfile₁⟩, rfl, Grows.refl _ _⟩
  by_cases hbad : bytes.length ≠ ehdrSize ∨ ¬(Ehdr.ofBytes bytes).acceptable = true
  · simp only [if_pos hbad]
    exact ⟨_, none, fun _ => rfl, ⟨hspace, ⟨_, hfile₁⟩, rfl, Grows.refl _ _⟩, (absurd · (by decide))⟩
  have hlength : bytes.length = ehdrSize := not_not.mp fun h => hbad (.inl h)
  have hehdr : Ehdr.ofBytes bytes = ehdrOf content := by
    rw [hlength, List.drop_zero] at hbytes
    rw [ehdrOf, ← hbytes]
  rw [hehdr] at hbad
  simp only [hehdr, if_neg hbad]
  obtain ⟨p₂, ok₂, hcode₂, hkeeps₂, hdone⟩ := loadHeaders_spec hkeeps.space hfile₁
    (ehdrOf content).phnum (toOff (ehdrOf content).phoff)
  simp only [hcode₂, some_bind]
  cases ok₂ with
  | false => exact ⟨p₂, none, fun _ => rfl, hkeeps.trans hkeeps₂, (absurd · (by decide))⟩
  | true =>
    obtain ⟨pos₂, hfile₂⟩ := hkeeps₂.file
    obtain ⟨p₃, ok₃, hcode₃, hkeeps₃⟩ := setupStack_spec hkeeps₂.space hfile₂
    simp only [hcode₃, some_bind]
    have hall := (hkeeps.trans hkeeps₂).trans hkeeps₃
    cases ok₃ with
    | false => exact ⟨p₃, none, fun _ => rfl, hall, (absurd · (by decide))⟩
    | true =>
      refine ⟨p₃, _, fun _ => rfl, hall, fun _ i hi hload => ?_⟩
      obtain ⟨hnonneg, hholds⟩ := hdone rfl i hi
      have hphoff : (toOff (ehdrOf content).phoff).toNat = (ehdrOf content).phoff := by
        have hlt : (ehdrOf content).phoff < unsignedSize := leWord_lt _
        rw [toOff] at hnonneg ⊢
        rw [unsignedSize] at hlt
        split at hnonneg <;> omega
      rw [hphoff] at hholds
      exact (hholds hload).mono hkeeps₃.grows

end Load
end Process

/-! ## The program in memory -/

theorem kind_of_load {phdr : Phdr} (h : phdr.type = 1) : phdr.kind = .loaded := by
  rw [Phdr.kind, h]
  rfl

theorem pageStart_eq (va : Nat) : pageStart va = pgNo va * pgsize := by
  rw [pageStart, pgOfs, pgNo, pgsize]
  omega

/-- The pages that are mapped are those that have been mapped. -/
theorem Space.Ok.mapped_iff {ramPages initPageDir pd ua : Nat} {s : Space}
    (h : s.Ok ramPages initPageDir pd) (hua : ua < physBase) :
    pagedirGetPage s.tables pd ua ≠ some none ↔ pageStart ua ∈ s.mapped := by
  rw [pageStart_eq, ← h.complete _ (pgNo_lt_kernelPage hua), h.valid.pagedirGetPage_eq hua]
  cases mapping s.tables pd (pgNo ua) <;> simp

section Main
variable {ramPages initPageDir : Nat} {p : Process} {nodes : Set Nat} {name : CharPtr}

/-- **`load` maps what the headers say, inside user space.**  Whatever the file contains and
wherever memory runs out: no assertion fails, and no sum or difference for `read_bytes` and
`zero_bytes` wraps; the pages that are mapped are page-aligned user addresses and not the
first page, and none is mapped twice.  If it succeeds, every byte of every segment is mapped, and
is the byte of the file, or zero; the page may be written as the header says. -/
theorem load_maps_segments (hfs : Ordered p.fs nodes []) (hboot : Booted p.space.tables initPageDir)
    (hpools : p.space.Pools ramPages initPageDir) (hnew : p.space.mapped = []) (hname : 0 ∈ name) :
    ∃ p' r, (∀ strict, p.load ramPages initPageDir strict name = some (p', r)) ∧
      (∀ upage ∈ p'.space.mapped, pgOfs upage = 0 ∧ pgsize ≤ upage ∧ upage < physBase) ∧
      p'.space.mapped.Nodup ∧
      (∀ pd, p'.pagedir = some pd → ∀ ua, ua < physBase →
        (pagedirGetPage p'.space.tables pd ua ≠ some none ↔ pageStart ua ∈ p'.space.mapped)) ∧
      (r.isSome = true → ∃ pd k, p'.pagedir = some pd ∧ k < 16 ∧
        Fs.Names p.fs.device 1 k (string name) ∧
        let content := Filesys.contents p.fs.device
          (Filesys.entrySector (Filesys.entryAt p.fs.device 1 k))
        ∀ i, i < (ehdrOf content).phnum →
          let phdr := phdrAt content (ehdrOf content).phoff i
          phdr.type = 1 → ∀ j, j < phdr.memsz → ∃ kaddr,
            pagedirGetPage p'.space.tables pd (phdr.vaddr + j) = some (some kaddr) ∧
            (if j < phdr.filesz then content[phdr.offset + j]? = some (p'.space.frames kaddr)
              else p'.space.frames kaddr = 0) ∧
            (pageWord p'.space.tables pd (pgNo (phdr.vaddr + j)) &&& pteW ≠ 0 ↔
              phdr.writable = true)) := by
  simp only [Process.load]
  cases hpd : p.space.kernelPages.head?.join with
  | none =>
    refine ⟨_, none, fun _ => rfl, ?_, ?_, fun _ h => absurd h (Option.some_ne_none _).symm,
      (absurd · (by decide))⟩
    · change ∀ upage ∈ p.space.mapped, _
      rw [hnew]
      exact fun _ h => absurd h List.not_mem_nil
    · change p.space.mapped.Nodup
      rw [hnew]
      exact List.nodup_nil
  | some pd =>
    have hspace := ok_of_create hboot hpools hpd
    rw [← hnew] at hspace
    obtain ⟨fs₁, r₁, hopen, hfs₁, hopened⟩ := hfs.filesysOpen hname
    simp only [pagedirCreate] at hspace ⊢
    simp only [hopen, some_bind]
    cases r₁ with
    | none =>
      refine ⟨_, none, fun _ => rfl, hspace.range, hspace.once, fun pd' hpd' ua hua => ?_,
        (absurd · (by decide))⟩
      obtain rfl : pd = pd' := Option.some.inj hpd'
      exact hspace.mapped_iff hua
    | some f =>
      obtain ⟨k, hk, hnames, hfile⟩ := reading_of_filesysOpen hfs hfs₁ hopened
      obtain ⟨p₂, r, hcode, hkeeps, hdone⟩ := Process.loadFile_spec (p := { p with
        fs := fs₁
        space := { p.space with
          tables := Function.update p.space.tables pd (p.space.tables initPageDir)
          kernelPages := p.space.kernelPages.tail }
        pagedir := some pd }) name hspace hfile
      obtain ⟨pos₂, hfile₂⟩ := hkeeps.file
      obtain ⟨fs₃, hclose⟩ := hfile₂.fileClose
      simp only [hcode, some_bind, hclose]
      refine ⟨{ p₂ with fs := fs₃ }, r, fun _ => rfl, hkeeps.space.range, hkeeps.space.once,
        fun pd' hpd' ua hua => ?_, fun hr => ⟨pd, k, hkeeps.pagedir, hk, hnames, ?_⟩⟩
      · obtain rfl : pd = pd' := Option.some.inj (hkeeps.pagedir.symm.trans hpd')
        exact hkeeps.space.mapped_iff hua
      · intro i hi hload j hj
        have hholds := hdone hr i hi (kind_of_load hload)
        obtain ⟨byte, hbyte, hat⟩ := hholds.bytes j hj
        obtain ⟨kaddr, hget, hframe, hwritable⟩ := hkeeps.space.getPage_of_byteAt
          (Nat.lt_of_lt_of_le (Nat.add_lt_add_left hj _) hholds.high) hat
        refine ⟨kaddr, hget, ?_, hwritable⟩
        rw [← hframe] at hbyte
        exact hbyte

end Main

/-- A program of one byte, which is to be loaded to `0x08048054` with a zero behind it. -/
def oneByte : List Byte :=
  [0x7f, 0x45, 0x4c, 0x46, 1, 1, 1] ++ List.replicate 9 0 ++
    [2, 0, 3, 0, 1, 0, 0, 0, 0x54, 0x80, 4, 8, 52, 0, 0, 0] ++ List.replicate 8 0 ++
    [52, 0, 32, 0, 1, 0] ++ List.replicate 6 0 ++
    [1, 0, 0, 0, 84, 0, 0, 0, 0x54, 0x80, 4, 8, 0, 0, 0, 0, 1, 0, 0, 0, 2, 0, 0, 0, 6, 0, 0, 0,
      0, 16, 0, 0] ++ [0x90]

/-- It is written to a file. -/
def oneByteCalls : List Filesys.Call :=
  [.create [97, 0] 85 fun _ => 0, .open [97, 0], .write 7 oneByte 85, .close 7]

/-- The file system then. -/
def oneByteFs : Fs :=
  TransitionSystem.after (TransitionSystem.orSelf Fs.exec) Filesys.eightFormatted oneByteCalls 4

/-- A machine with 4 MB on which nothing else runs. -/
def oneByteProcess : Process where
  fs := oneByteFs
  space :=
    { tables := Tables.fill (fun _ _ => 0) 0xc0100000 0
      frames := fun _ => 0xcc
      kernelPages := [some 0xc0101000, some 0xc0102000, some 0xc0103000]
      userPages := [some 0xc0200000, some 0xc0201000]
      mapped := [] }
  pagedir := none
  console := []

theorem ordered_oneByte : ∃ nodes, Ordered oneByteProcess.fs nodes [] := by
  let state := TransitionSystem.after (TransitionSystem.orSelf Fs.exec) Filesys.eightFormatted
    oneByteCalls
  obtain ⟨hreturns, hfile, hmap, hfile', hmap'⟩ :
      (∀ t, t < 4 → ((state t).exec (oneByteCalls.getD t (.close 0))).isSome = true) ∧
      ((state 2).file 7).isSome = true ∧ (state 2).freeMapFile ≠ some 7 ∧
      ((state 3).file 7).isSome = true ∧ (state 3).freeMapFile ≠ some 7 := by decide +kernel
  have hrun : Fs.system.Run 4 state fun t => oneByteCalls.getD t (.close 0) :=
    TransitionSystem.Run.of_checked_labels ⟨_, _, _, Filesys.filesysInit_eightSectors⟩ oneByteCalls _
      fun t ht => by
        refine ⟨?_, hreturns t ht⟩
        have ht : t < 4 := ht
        interval_cases t
        · exact ⟨by decide, by decide, by decide⟩
        · exact show 0 ∈ _ by decide
        · exact ⟨⟨hfile, hmap⟩, by decide⟩
        · exact ⟨hfile', hmap'⟩
  have hfs : oneByteProcess.fs = state 4 := by rw [oneByteProcess, oneByteFs]
  rw [hfs]
  exact Filesys.ordered_run hrun (Nat.le_refl 4)

theorem pools_oneByte : oneByteProcess.space.Pools 1024 0xc0100000 := by
  have hpages : ∀ pt ∈ [0xc0101000, 0xc0102000, 0xc0103000], IsPage pt ∧ pt ≠ 0xc0100000 := by decide
  refine ⟨fun pt hpt => ?_, by decide, fun kpage hkpage => ?_, by decide⟩
  · have hmem : pt ∈ [0xc0101000, 0xc0102000, 0xc0103000] := by
      simpa [oneByteProcess] using hpt
    exact Fresh.of_fill (hpages pt hmem).1 (hpages pt hmem).2
  · have hmem : kpage ∈ [0xc0200000, 0xc0201000] := by
      simpa [oneByteProcess] using hkpage
    have hall : ∀ kpage ∈ [0xc0200000, 0xc0201000],
        IsPage kpage ∧ pgNo (kpage - physBase) < 1024 := by decide
    exact hall kpage hmem

/-- The program is loaded: the byte, and the zero behind it. -/
theorem load_maps_oneByte : ∃ p' pd kaddr kaddr',
    (∀ strict, oneByteProcess.load 1024 0xc0100000 strict [97, 0] =
      some (p', some (0x08048054, physBase))) ∧
    pagedirGetPage p'.space.tables pd 0x08048054 = some (some kaddr) ∧
    p'.space.frames kaddr = 0x90 ∧
    pagedirGetPage p'.space.tables pd 0x08048055 = some (some kaddr') ∧
    p'.space.frames kaddr' = 0 := by
  obtain ⟨nodes, hordered⟩ := ordered_oneByte
  have hname : (0 : Byte) ∈ [(97 : Byte), 0] := by decide
  obtain ⟨p', r, hcode, -, -, -, hloaded⟩ := load_maps_segments (p := oneByteProcess) hordered
    (booted_fill (by decide)) pools_oneByte rfl hname
  have hr : r = some (0x08048054, physBase) := by
    have hrun : (oneByteProcess.load 1024 0xc0100000 false [97, 0]).map Prod.snd =
        some (some (0x08048054, physBase)) := by decide +kernel
    rw [hcode false, Option.map_some, Option.some.injEq] at hrun
    exact hrun
  subst hr
  obtain ⟨pd, k, -, hk, hnames, hsegments⟩ := hloaded rfl
  have hfile : ∀ k, k < 16 → Fs.Names oneByteProcess.fs.device 1 k [97] →
      Filesys.contents oneByteProcess.fs.device
        (Filesys.entrySector (Filesys.entryAt oneByteProcess.fs.device 1 k)) = oneByte := by
    decide +kernel
  simp only [hfile k hk hnames] at hsegments
  have hbytes := hsegments 0 (by decide) (by decide)
  obtain ⟨kaddr, hget, hbyte, -⟩ := hbytes 0 (by decide)
  obtain ⟨kaddr', hget', hbyte', -⟩ := hbytes 1 (by decide)
  exact ⟨p', pd, kaddr, kaddr', hcode, hget, (Option.some.inj hbyte).symm, hget', hbyte'⟩

end Pintos
