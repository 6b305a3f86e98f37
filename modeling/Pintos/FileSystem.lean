import Mathlib.Data.List.Nodup
import Pintos.Directory

/-!
# The file system

`filesys_create`, `filesys_open` and `filesys_remove` of `filesys/filesys.c`, on a root
directory of 16 entries.  Callers use them with `file_read`, `file_write` and `file_close`
on the files they have opened, in any order and whether or not there is memory.

**The file system stays in order** (`Ordered`): what the functions below know about the
sectors, the counts and the root directory is true again after every call, and every call
returns.  `SectorOwnership` draws from it that **no sector belongs to two files**, and `Remount`
that nothing is lost when the file system is mounted again.
-/

namespace Pintos.Filesys
open List
open Objects (mem_of_get)

open CString

/-! ## The code -/

namespace Fs

/-- The conjunction in `filesys_create`: what is in `inode_sector` then, and its value. -/
def tryCreate (s : Fs) (dir : Option Nat) (name : CharPtr) (initialSize : Int) (junk : Memory) :
    Option (Fs × Nat × Bool) := do
  match dir with
  | none => some (s, 0, false)
  | some a =>
    match ← s.freeMapAllocate 1 with
    | (s, none) => some (s, 0, false)
    | (s, some sector) =>
      match ← s.inodeCreate sector initialSize with
      | (s, false) => some (s, sector, false)
      | (s, true) =>
        let (s, added) ← s.dirAdd a name sector junk
        some (s, sector, added)

/-- `filesys_create`.  `junk` is what is on the stack of `dir_add`. -/
def filesysCreate (s : Fs) (name : CharPtr) (initialSize : Int) (junk : Memory) :
    Option (Fs × Bool) := do
  let (s, dir) ← s.dirOpenRoot
  let (s, inodeSector, success) ← s.tryCreate dir name initialSize junk
  let s ← if success = false ∧ inodeSector ≠ 0 then s.freeMapRelease inodeSector 1 else some s
  some (← s.dirClose dir, success)

/-- `filesys_open`. -/
def filesysOpen (s : Fs) (name : CharPtr) : Option (Fs × Option Nat) := do
  let (s, dir) ← s.dirOpenRoot
  let (s, inode) ←
    match dir with
    | none => some (s, none)
    | some a => s.dirLookup a name
  let s ← s.dirClose dir
  s.fileOpen inode

/-- `filesys_remove`. -/
def filesysRemove (s : Fs) (name : CharPtr) : Option (Fs × Bool) := do
  let (s, dir) ← s.dirOpenRoot
  let (s, success) ←
    match dir with
    | none => some (s, false)
    | some a => s.dirRemove a name
  some (← s.dirClose dir, success)

end Fs

/-! ## Order -/

/-- A file that a caller has opened is not the free map's, and its inode is neither that of
the free map nor that of the root directory. -/
def UserFiles (s : Fs) : Prop :=
  ∀ f ∈ s.files, s.freeMapFile ≠ some f.addr →
    ∀ i, s.inode f.inode = some i → i.sector ≠ 0 ∧ i.sector ≠ 1

/-- **The file system is in order**, with the inodes in the sectors `nodes`, while the code
holds on to the inodes `held`. -/
structure Ordered (s : Fs) (nodes : Set Nat) (held : List Nat) : Prop where
  volume : Volume s s.files nodes held
  directory : Directory s nodes 1 16
  mapFile : s.freeMapFile.isSome = true
  user : UserFiles s

section Order
variable {s s' : Fs} {nodes nodes' : Set Nat} {held held' : List Nat} {a : Nat} {i : Inode}
  {name : CharPtr}

theorem Ordered.zero_mem (h : Ordered s nodes held) : 0 ∈ nodes := by
  obtain ⟨f, hf⟩ := Option.isSome_iff_exists.mp h.mapFile
  exact (h.volume.map f hf).1

/-- The files of callers stay theirs as long as inodes keep their sectors. -/
theorem UserFiles.congr (h : UserFiles s) (hv : Volume s s.files nodes held)
    (hfiles : s'.files = s.files) (hmap : s'.freeMapFile = s.freeMapFile)
    (hsector : ∀ b j j', s.inode b = some j → s'.inode b = some j' → j'.sector = j.sector) :
    UserFiles s' := by
  intro f hf hne i hi
  rw [hfiles] at hf
  rw [hmap] at hne
  obtain ⟨j, hj⟩ := hv.counted.get_of_file hf
  rw [hsector f.inode j i hj hi]
  exact h f hf hne j hj

theorem no_file_of_users {files : List File} (hfew : files.length ≤ maxFiles)
    (hwrap : wrap (users files [] a) = 0) : ∀ f ∈ files, f.inode ≠ a := by
  have hle : users files [] a ≤ files.length := countP_le_length
  rw [wrap_eq_zero_iff (by unfold maxFiles unsignedSize at *; omega)] at hwrap
  intro f hf hfa
  exact countP_eq_zero.mp hwrap f hf (by simpa using hfa)

/-- A pointer that is held once and whose count comes down to 0 leaves no file. -/
theorem no_file_of_wrap {files : List File} (hnodup : held.Nodup) (ha : a ∈ held)
    (hfew : files.length ≤ maxFiles) (hwrap : wrap ((users files held a : Int) - 1) = 0) :
    ∀ f ∈ files, f.inode ≠ a := by
  rw [users, count_eq_one_of_mem hnodup ha, Int.natCast_add, Int.natCast_one,
    Int.add_sub_cancel] at hwrap
  exact no_file_of_users hfew hwrap

/-- **A pointer is given back.** -/
theorem Ordered.inodeClose (h : Ordered s nodes held) (hnodup : held.Nodup) (ha : a ∈ held)
    (hi : s.inode a = some i) (h0 : i.sector ≠ 0) :
    ∃ s' nodes', s.inodeClose a = some s' ∧ Ordered s' nodes' (held.erase a) ∧
      Closed s nodes held a i s' nodes' (held.erase a) := by
  obtain ⟨s', nodes', held', hcode, hv, hclosed⟩ := h.volume.inodeClose ha hi
    (no_file_of_wrap hnodup ha h.volume.few) (fun _ => h0) fun _ => h.mapFile
  obtain rfl := hclosed.held_eq hnodup
  have hvolume : Volume s' s'.files nodes' (held.erase a) := hclosed.files ▸ hv
  refine ⟨s', nodes', hcode, ⟨hvolume, h.directory.close h.volume hclosed hi, ?_, ?_⟩, hclosed⟩
  · rw [hclosed.freeMapFile]
    exact h.mapFile
  · exact h.user.congr h.volume hclosed.files hclosed.freeMapFile fun b j j' hj hj' =>
      hclosed.sector_eq h.volume hj hj'

/-- Only inodes in memory and the answers of `malloc` change. -/
structure Quiet (s s' : Fs) : Prop where
  files : s'.files = s.files
  device : s'.device = s.device
  freeMap : s'.freeMap = s.freeMap
  freeMapFile : s'.freeMapFile = s.freeMapFile
  answers : s.answers = [] → s'.answers = []

theorem Quiet.trans {s'' : Fs} (h : Quiet s s') (h' : Quiet s' s'') : Quiet s s'' :=
  ⟨h'.files.trans h.files, h'.device.trans h.device, h'.freeMap.trans h.freeMap,
    h'.freeMapFile.trans h.freeMapFile, fun hs => h'.answers (h.answers hs)⟩

/-- The root directory is open at `a`. -/
def RootAt (s : Fs) (a : Nat) : Prop :=
  ∃ i, s.inode a = some i ∧ i.sector = 1

section
variable (h : Ordered s nodes held)
include h

theorem Ordered.withAnswers (answers : List Bool) :
    Ordered { s with answers } nodes held :=
  ⟨h.volume.withAnswers answers, h.directory.same rfl rfl, h.mapFile, h.user⟩

/-- An inode of the volume is opened. -/
theorem Ordered.inodeOpen {n : Nat} (hn : n ∈ nodes) :
    ∃ s' r, s.inodeOpen n = some (s', r) ∧ Ordered s' nodes (r.toList ++ held) ∧
      Opened s n r s' := by
  obtain ⟨s', r, hcode, hv, hopened⟩ := h.volume.inodeOpen hn
  have hsame : Unchanged s.device s'.device fun _ => True :=
    ⟨by rw [hopened.device], fun x _ => by rw [hopened.device]⟩
  refine ⟨s', r, hcode, ⟨hopened.files ▸ hv, ?_, ?_, ?_⟩, hopened⟩
  · exact h.directory.congr h.volume.owned hsame (fun _ _ => trivial) h.directory.node
      (fun k hk huse => (h.directory.entry k hk huse).node) hopened.removed
  · rw [hopened.freeMapFile]
    exact h.mapFile
  · exact h.user.congr h.volume hopened.files hopened.freeMapFile fun b j j' hj hj' =>
      hopened.sector_eq hj hj'

/-- An inode that has not been removed is closed: nothing else changes. -/
theorem Ordered.closeKept (hnodup : held.Nodup) (ha : a ∈ held) (hi : s.inode a = some i)
    (h0 : i.sector ≠ 0) (hkeep : i.removed = false) :
    ∃ s', s.inodeClose a = some s' ∧ Ordered s' nodes (held.erase a) ∧ Quiet s s' ∧
      ∀ b j, b ≠ a → s.inode b = some j → s'.inode b = some j := by
  obtain ⟨s', nodes', hcode, hordered, hclosed⟩ := h.inodeClose hnodup ha hi h0
  obtain rfl : nodes' = nodes := hclosed.nodes_eq hkeep
  obtain ⟨hmap, hdevice⟩ := hclosed.same hkeep
  exact ⟨s', hcode, hordered,
    ⟨hclosed.files, hdevice, hmap, hclosed.freeMapFile, hclosed.answers⟩, hclosed.kept⟩

/-- The root directory is closed. -/
theorem Ordered.closeRoot (hnodup : held.Nodup) (ha : a ∈ held) (hroot : RootAt s a) :
    ∃ s', s.inodeClose a = some s' ∧ Ordered s' nodes (held.erase a) ∧ Quiet s s' ∧
      ∀ b j, b ≠ a → s.inode b = some j → s'.inode b = some j := by
  obtain ⟨i, hi, hsector⟩ := hroot
  refine h.closeKept hnodup ha hi (by rw [hsector]; decide) ?_
  by_contra hrem
  exact (h.directory.removed i (mem_of_get hi) (Bool.eq_true_of_not_eq_false hrem)).2.1
    hsector

end

/-- The open inodes but the root directory's stay open. -/
def KeepsOthers (s s' : Fs) : Prop :=
  ∀ b j, s.inode b = some j → j.sector ≠ 1 → ∃ j', s'.inode b = some j' ∧ Fs.core j' = Fs.core j

/-- An inode at the address of the root directory is the root directory's. -/
theorem RootAt.ne_of_sector (hroot : RootAt s a) {b : Nat} {j : Inode} (hj : s.inode b = some j)
    (h1 : j.sector ≠ 1) : b ≠ a := by
  rintro rfl
  obtain ⟨i, hi, hsector⟩ := hroot
  rw [Option.some.inj (hj.symm.trans hi)] at h1
  exact h1 hsector

/-- **`dir_open_root`.** -/
theorem Ordered.dirOpenRoot (h : Ordered s nodes []) :
    ∃ s' r, s.dirOpenRoot = some (s', r) ∧ Ordered s' nodes r.toList ∧ Quiet s s' ∧
      KeepsOthers s s' ∧ (∀ a, r = some a → RootAt s' a) ∧ (s.answers = [] → r.isSome = true) := by
  obtain ⟨s₁, r, hopen, h₁, hopened⟩ := h.inodeOpen h.directory.node
  rw [append_nil] at h₁
  have h₂ := h₁.withAnswers s₁.answers.tail
  have hnil : s.answers = [] → s₁.answers.tail = [] := fun hs => by rw [hopened.answers hs]; rfl
  have hquiet : Quiet s { s₁ with answers := s₁.answers.tail } :=
    ⟨hopened.files, hopened.device, hopened.freeMap, hopened.freeMapFile, hnil⟩
  have hkept : KeepsOthers s { s₁ with answers := s₁.answers.tail } := fun b j hj _ =>
    hopened.kept b j hj
  simp only [Fs.dirOpenRoot, hopen, some_bind, Fs.dirOpen, Fs.malloc_eq]
  cases r with
  | none =>
    refine ⟨_, none, rfl, h₂, hquiet, hkept, (fun a ha => nomatch ha), fun hs => ?_⟩
    exact absurd (hopened.success hs) (by decide)
  | some a =>
    obtain ⟨i, hi, hsector⟩ := hopened.inode a rfl
    have hroot : RootAt { s₁ with answers := s₁.answers.tail } a := ⟨i, hi, hsector⟩
    cases hhead : s₁.answers.headD true with
    | true =>
      refine ⟨_, some a, rfl, h₂, hquiet, hkept, ?_, fun _ => rfl⟩
      rintro _ ⟨⟩
      exact hroot
    | false =>
      obtain ⟨s', hclose, h', hquiet', hkept'⟩ := h₂.closeRoot (nodup_singleton a)
        (mem_singleton_self a) hroot
      rw [Option.toList_some, erase_cons_head] at h'
      refine ⟨s', none, by simp [hclose], h', hquiet.trans hquiet', fun b j hj h1 => ?_,
        (fun a ha => nomatch ha), fun hs => ?_⟩
      · obtain ⟨j', hj', hcore⟩ := hkept b j hj h1
        have hsector : j'.sector = j.sector := congrArg (fun c => c.2.1) hcore
        exact ⟨j', hkept' b j' (hroot.ne_of_sector hj' (hsector ▸ h1)) hj', hcore⟩
      · rw [hopened.answers hs] at hhead
        exact absurd hhead (by decide)

/-- **`dir_close`** of the root directory. -/
theorem Ordered.dirClose {r : Option Nat} (h : Ordered s nodes r.toList)
    (hroot : ∀ a, r = some a → RootAt s a) :
    ∃ s', s.dirClose r = some s' ∧ Ordered s' nodes [] ∧ Quiet s s' ∧ KeepsOthers s s' := by
  cases r with
  | none => exact ⟨s, rfl, h, ⟨rfl, rfl, rfl, rfl, id⟩, fun b j hj _ => ⟨j, hj, rfl⟩⟩
  | some a =>
    obtain ⟨s', hcode, h', hquiet, hkept⟩ := h.closeRoot (nodup_singleton a)
      (mem_singleton_self a) (hroot a rfl)
    rw [Option.toList_some, erase_cons_head] at h'
    exact ⟨s', hcode, h', hquiet, fun b j hj h1 =>
      ⟨j, hkept b j ((hroot a rfl).ne_of_sector hj h1) hj, rfl⟩⟩

/-! ## Making a file -/

/-- The bytes of the inode in a sector. -/
def contents (d : Device) (n : Nat) : List Byte :=
  d.bytes.load ((inodeAt d n).at 0) (inodeAt d n).length.toNat

/-- An inode whose sectors have not changed has the same bytes. -/
theorem contents_of_unchanged {d d' : Device} {P : Nat → Prop} {n : Nat} (h : Unchanged d d' P)
    (hd : OnDevice d (inodeAt d n)) (hP : ∀ k, Area d n k → P k) :
    inodeAt d' n = inodeAt d n ∧ contents d' n = contents d n := by
  have hinode := h.inodeAt (hP n (.inl rfl))
  have hlength := hd.length_nonneg
  refine ⟨hinode, ?_⟩
  rw [contents, hinode]
  exact h.load hd (fun k hk => hP k (.inr hk)) (by omega)

/-- Nothing about the open files changes. -/
theorem Ordered.of_table (h : Ordered s nodes held) (htable : s'.toOpenTable = s.toOpenTable)
    (hmap : s'.freeMapFile = s.freeMapFile) (hv : Volume s' s.files nodes' held)
    (hdir : Directory s' nodes' 1 16) : Ordered s' nodes' held := by
  have hfiles : s'.files = s.files := by rw [htable]
  refine ⟨hfiles ▸ hv, hdir, hmap ▸ h.mapFile, h.user.congr h.volume hfiles hmap ?_⟩
  intro b j j' hj hj'
  rw [Fs.inode, htable] at hj'
  rw [Option.some.inj (hj'.symm.trans hj)]

variable {n m : Nat} {size : Int}

/-- A sector is allocated. -/
theorem Ordered.allocate (h : Ordered s nodes held) :
    ∃ s' r, s.freeMapAllocate 1 = some (s', r) ∧ Ordered s' nodes held ∧ Allocated s 1 r s' ∧
      ∀ n, r = some n → Reserved s' nodes n := by
  obtain ⟨s', r, hcode, hv, halloc, hreserved⟩ := h.volume.allocateOne
  exact ⟨s', r, hcode, h.of_table halloc.table halloc.freeMapFile hv
    (h.directory.of_mapArea h.volume halloc.device halloc.table), halloc, hreserved⟩

/-- An inode is made in a sector that is reserved for it. -/
theorem Ordered.create (h : Ordered s nodes held) (hn : Reserved s nodes n) (h0 : 0 ≤ size)
    (hlt : size < 2147483648) :
    ∃ s' ok, s.inodeCreate n size = some (s', ok) ∧ InodeCreate s s.files nodes held n size ok s' ∧
      (ok = false → Ordered s' nodes held) ∧
      (ok = true → Ordered s' (insert n nodes) held ∧ Unbound s' (insert n nodes) 1 16 n) := by
  obtain ⟨s', ok, hcode, hcreate⟩ := h.volume.inodeCreate hn h0 hlt
  refine ⟨s', ok, hcode, hcreate, fun hok => ?_, fun hok => ?_⟩
  · obtain ⟨hv, -, hsame, -⟩ := hcreate.failed hok
    exact h.of_table hcreate.table hcreate.freeMapFile hv
      (h.directory.of_mapArea h.volume hsame hcreate.table)
  · subst hok
    obtain ⟨hdir, hunbound, -⟩ := h.directory.created h.volume h.zero_mem hn hcreate
    exact ⟨h.of_table hcreate.table hcreate.freeMapFile (hcreate.created rfl).1 hdir, hunbound⟩

/-- An entry is added to the root directory. -/
theorem Ordered.dirAdd (h : Ordered s nodes held) (hroot : RootAt s a) (hname : 0 ∈ name)
    (hm : Unbound s nodes 1 16 m) (junk : Memory) :
    ∃ s' ok, s.dirAdd a name m junk = some (s', ok) ∧ Ordered s' nodes held ∧
      Fs.Added s 1 16 (string name) m s'.answers s'.device ok ∧
      s'.toOpenTable = s.toOpenTable ∧ s'.freeMap = s.freeMap ∧ s'.freeMapFile = s.freeMapFile ∧
      Unchanged s.device s'.device (fun k => ¬(inodeAt s.device 1).Has k) := by
  obtain ⟨i, hi, hsector⟩ := hroot
  have hlt : m < unsignedSize := by
    have := h.volume.owned.lt m hm.node
    have := h.volume.owned.size_lt
    omega
  obtain ⟨answers, device, ok, hcode, hadded⟩ :=
    (h.directory.openDir h.volume hi hsector).dirAdd hname hlt junk
  obtain ⟨hv, hdir, hsame⟩ := h.directory.add h.volume hm hadded
  exact ⟨_, ok, hcode, h.of_table rfl rfl hv hdir, hadded, rfl, rfl, rfl, hsame⟩

/-- An inode that is neither open nor in the directory is forgotten: its sector is only
reserved then. -/
theorem Ordered.forget (h : Ordered s (insert n nodes) held) (hn : n ∉ nodes)
    (hopen : ∀ i ∈ s.inodes, i.sector ∈ nodes) (h0 : 0 ∈ nodes) (h1 : 1 ∈ nodes)
    (hentry : ∀ k, k < 16 → entryInUse (entryAt s.device 1 k) = true →
      entrySector (entryAt s.device 1 k) ∈ nodes) :
    Ordered s nodes held ∧ Reserved s nodes n := by
  have hsub : nodes ⊆ insert n nodes := fun _ hm => .inr hm
  refine ⟨⟨h.volume.shrink nodes hsub hopen fun _ => h0, ?_, h.mapFile, h.user⟩, ?_, ?_, ?_⟩
  · exact h.directory.congr h.volume.owned (Unchanged.refl _ fun _ => True) (fun _ _ => trivial) h1
      hentry fun i hi hrem => ⟨i, hi, rfl, hrem⟩
  · exact h.volume.owned.lt n (.inl rfl)
  · exact h.volume.owned.marked n (.inl rfl) n (.inl rfl)
  · intro m hm harea
    exact h.volume.owned.apart n (.inl rfl) m (.inr hm) (fun heq => hn (heq ▸ hm)) n (.inl rfl) harea

/-- A sector that has been reserved is given back. -/
theorem Ordered.release (h : Ordered s nodes held) (hn : Reserved s nodes n) :
    ∃ s', s.freeMapRelease n 1 = some s' ∧ Ordered s' nodes held ∧ Fs.ReleasedRange s n 1 s' ∧
      Unchanged s.device s'.device (¬MapArea s ·) ∧
      (s.answers = [] → s'.answers = [] ∧ Saved s'.device s'.freeMap) := by
  obtain ⟨f, hf⟩ := Option.isSome_iff_exists.mp h.mapFile
  have hfits : n + 1 ≤ s.freeMap.bitCnt := h.volume.owned.bitCnt ▸ hn.lt
  have hbits : ∀ j, j < 1 → s.freeMap.bit (n + j) = true := fun j hj => by
    obtain rfl : j = 0 := by omega
    exact hn.marked
  obtain ⟨s', hcode, hv, hreleased, hsame, hnil⟩ := h.volume.freeMapRelease hf hfits hbits
    fun m hm k hk hrange => hn.fresh m hm (by
      obtain rfl : k = n := by omega
      exact hk)
  exact ⟨s', hcode, h.of_table hreleased.table hreleased.freeMapFile hv
    (h.directory.of_mapArea h.volume hsame hreleased.table), hreleased, hsame, hnil⟩

/-- **What `filesys_create` does.** -/
structure FileCreated (s : Fs) (nodes : Set Nat) (str : List Byte) (size : Int) (ok : Bool) (s' : Fs)
    (nodes' : Set Nat) : Prop where
  files : s'.files = s.files
  freeMapFile : s'.freeMapFile = s.freeMapFile
  answers : s.answers = [] → s'.answers = []
  saved : s.answers = [] → Saved s.device s.freeMap → Saved s'.device s'.freeMap
  kept : ∀ m ∈ nodes, m ≠ 0 → m ≠ 1 → inodeAt s'.device m = inodeAt s.device m ∧
    contents s'.device m = contents s.device m
  failed : ok = false → nodes' = nodes ∧ ∀ k, k < 16 → entryAt s'.device 1 k = entryAt s.device 1 k
  done : ok = true → ValidName str ∧ ∃ n k, n ∉ nodes ∧ nodes' = insert n nodes ∧ k < 16 ∧
    NewEntry (entryAt s'.device 1 k) str n ∧
    (∀ j, j < 16 → j ≠ k → entryAt s'.device 1 j = entryAt s.device 1 j) ∧
    (s.answers = [] → entryInUse (entryAt s.device 1 k) = false ∧
      ∀ j, j < 16 → ¬Fs.Names s.device 1 j str) ∧
    (inodeAt s'.device n).length = size ∧ contents s'.device n = List.replicate size.toNat 0

/-- **Nothing that a caller sees changes**: not the inodes and their bytes, nor the entries of the
root directory. -/
structure Kept (s : Fs) (nodes : Set Nat) (s' : Fs) : Prop where
  files : s'.files = s.files
  freeMapFile : s'.freeMapFile = s.freeMapFile
  answers : s.answers = [] → s'.answers = []
  saved : s.answers = [] → Saved s.device s.freeMap → Saved s'.device s'.freeMap
  kept : ∀ m ∈ nodes, m ≠ 0 → m ≠ 1 → inodeAt s'.device m = inodeAt s.device m ∧
    contents s'.device m = contents s.device m
  entry : ∀ k, k < 16 → entryAt s'.device 1 k = entryAt s.device 1 k

theorem Kept.trans {s'' : Fs} (h : Kept s nodes s') (h' : Kept s' nodes s'') : Kept s nodes s'' := by
  refine ⟨h'.files.trans h.files, h'.freeMapFile.trans h.freeMapFile,
    fun hs => h'.answers (h.answers hs), fun hs hsave => h'.saved (h.answers hs) (h.saved hs hsave),
    fun m hm h0 h1 => ?_, fun k hk => (h'.entry k hk).trans (h.entry k hk)⟩
  obtain ⟨hinode, hcontents⟩ := h.kept m hm h0 h1
  obtain ⟨hinode', hcontents'⟩ := h'.kept m hm h0 h1
  exact ⟨hinode'.trans hinode, hcontents'.trans hcontents⟩

theorem Quiet.kept (h : Quiet s s') (nodes : Set Nat) : Kept s nodes s' := by
  refine ⟨h.files, h.freeMapFile, h.answers, fun _ hsave => ?_, fun m _ _ _ => ?_, fun k _ => ?_⟩
  · rwa [h.device, h.freeMap]
  · rw [h.device]
    exact ⟨rfl, rfl⟩
  · rw [h.device]

/-- Only the free map is written. -/
theorem Ordered.kept_of_mapArea (h : Ordered s nodes held) (htable : s'.toOpenTable = s.toOpenTable)
    (hmap : s'.freeMapFile = s.freeMapFile) (hnil : s.answers = [] → s'.answers = [])
    (hsaved : s.answers = [] → Saved s.device s.freeMap → Saved s'.device s'.freeMap)
    (hsame : Unchanged s.device s'.device (¬MapArea s ·)) : Kept s nodes s' := by
  refine ⟨by rw [htable], hmap, hnil, hsaved, fun m hm h0 _ => ?_, fun k hk => ?_⟩
  · exact contents_of_unchanged hsame (h.volume.owned.onDevice m hm) fun _ hk =>
      h.volume.not_mapArea_of_area hm h0 hk
  · exact h.directory.entry_of_mapArea h.volume hsame hk

/-- A file that is not made. -/
theorem Kept.not_created (h : Kept s nodes s') (str : List Byte) (size : Int) :
    FileCreated s nodes str size false s' nodes :=
  ⟨h.files, h.freeMapFile, h.answers, h.saved, h.kept, fun _ => ⟨rfl, h.entry⟩, Bool.noConfusion⟩

/-- What comes before and after the making of a file. -/
theorem FileCreated.between {s₁ s₂ : Fs} {str : List Byte} {ok : Bool} (hbefore : Kept s nodes s₁)
    (h : FileCreated s₁ nodes str size ok s₂ nodes') (hafter : Kept s₂ nodes' s')
    (h0 : 0 ∈ nodes) (h1 : 1 ∈ nodes) : FileCreated s nodes str size ok s' nodes' := by
  have hsub : nodes ⊆ nodes' := by
    cases ok with
    | false => exact (h.failed rfl).1.symm.subset
    | true =>
      obtain ⟨-, n, -, -, rfl, -⟩ := h.done rfl
      exact Set.subset_insert n nodes
  refine ⟨hafter.files.trans (h.files.trans hbefore.files),
    hafter.freeMapFile.trans (h.freeMapFile.trans hbefore.freeMapFile),
    fun hs => hafter.answers (h.answers (hbefore.answers hs)),
    fun hs hsave => hafter.saved (h.answers (hbefore.answers hs))
      (h.saved (hbefore.answers hs) (hbefore.saved hs hsave)), fun m hm hm0 hm1 => ?_, fun hok => ?_,
    fun hok => ?_⟩
  · obtain ⟨hinode₁, hcontents₁⟩ := hbefore.kept m hm hm0 hm1
    obtain ⟨hinode₂, hcontents₂⟩ := h.kept m hm hm0 hm1
    obtain ⟨hinode₃, hcontents₃⟩ := hafter.kept m (hsub hm) hm0 hm1
    exact ⟨hinode₃.trans (hinode₂.trans hinode₁), hcontents₃.trans (hcontents₂.trans hcontents₁)⟩
  · exact ⟨(h.failed hok).1, fun k hk =>
      (hafter.entry k hk).trans (((h.failed hok).2 k hk).trans (hbefore.entry k hk))⟩
  · obtain ⟨hvalid, n, k, hn, rfl, hk, hnew, hother, hfree, hlength, hcontents⟩ := h.done hok
    obtain ⟨hinode, hbytes⟩ := hafter.kept n (.inl rfl) (fun heq => hn (heq ▸ h0))
      fun heq => hn (heq ▸ h1)
    refine ⟨hvalid, n, k, hn, rfl, hk, hafter.entry k hk ▸ hnew, fun j hj hjk => ?_, fun hs => ?_,
      by rw [hinode]; exact hlength, hbytes.trans hcontents⟩
    · exact (hafter.entry j hj).trans ((hother j hj hjk).trans (hbefore.entry j hj))
    · obtain ⟨hunused, hnone⟩ := hfree (hbefore.answers hs)
      refine ⟨hbefore.entry k hk ▸ hunused, fun j hj hnames => hnone j hj ?_⟩
      rwa [Fs.Names, hbefore.entry j hj]

/-- An inode is made, or not: nothing that was there changes. -/
theorem InodeCreate.kept {ok : Bool} (hcreate : InodeCreate s s.files nodes held n size ok s')
    (h : Ordered s nodes held) (hn : Reserved s nodes n) : Kept s nodes s' := by
  have hsaved : s.answers = [] → Saved s.device s.freeMap → Saved s'.device s'.freeMap := fun hs =>
    hcreate.saved (.inl hs) h.mapFile
  cases ok with
  | false =>
    obtain ⟨-, -, hsame, -⟩ := hcreate.failed rfl
    exact h.kept_of_mapArea hcreate.table hcreate.freeMapFile hcreate.answers hsaved hsame
  | true =>
    obtain ⟨hv, hcreated⟩ := hcreate.created rfl
    obtain ⟨-, -, hentry⟩ := h.directory.created h.volume h.zero_mem hn hcreate
    refine ⟨by rw [hcreate.table], hcreate.freeMapFile, hcreate.answers, hsaved, fun m hm h0 _ => ?_,
      hentry⟩
    exact contents_of_unchanged hcreated.device (h.volume.owned.onDevice m hm) fun k hk =>
      hcreated.of_area h.volume hv hn.notMem hm h0 hk

/-- **The entry for a new inode** is added, or the inode is forgotten. -/
theorem Ordered.addCreated (h : Ordered s (insert n nodes) held) (hroot : RootAt s a)
    (hname : 0 ∈ name) (hn : n ∉ nodes) (hunbound : Unbound s (insert n nodes) 1 16 n)
    (hopen : ∀ i ∈ s.inodes, i.sector ∈ nodes) (h0 : 0 ∈ nodes) (h1 : 1 ∈ nodes)
    (hentry : ∀ k, k < 16 → entryInUse (entryAt s.device 1 k) = true →
      entrySector (entryAt s.device 1 k) ∈ nodes) (junk : Memory)
    (hlength : (inodeAt s.device n).length = size)
    (hzeros : contents s.device n = List.replicate size.toNat 0) :
    ∃ s' ok nodes', s.dirAdd a name n junk = some (s', ok) ∧ Ordered s' nodes' held ∧
      s'.toOpenTable = s.toOpenTable ∧ FileCreated s nodes (string name) size ok s' nodes' ∧
      (ok = false → Reserved s' nodes n) := by
  obtain ⟨s', ok, hcode, h', hadded, htable, hmap, hfile, hsame⟩ := h.dirAdd hroot hname hunbound junk
  -- the data of the root directory belongs to no other inode
  have harea : ∀ m ∈ insert n nodes, m ≠ 1 → ∀ k, Area s.device m k → ¬(inodeAt s.device 1).Has k :=
    fun m hm hm1 k hk hhas =>
      h.volume.owned.apart m hm 1 h.directory.node hm1 k hk (.inr hhas)
  have hkept : ∀ m ∈ insert n nodes, m ≠ 1 → inodeAt s'.device m = inodeAt s.device m ∧
      contents s'.device m = contents s.device m := fun m hm hm1 =>
    contents_of_unchanged hsame (h.volume.owned.onDevice m hm) (harea m hm hm1)
  have hsaved : s.answers = [] → Saved s.device s.freeMap → Saved s'.device s'.freeMap := by
    intro _ hsave
    rw [hmap]
    exact h.volume.saved h.mapFile hsame (harea 0 h.zero_mem (by decide)) hsave
  cases ok with
  | false =>
    have hdevice := hadded.failed rfl
    obtain ⟨h'', hn'⟩ := h'.forget hn (by rw [htable]; exact hopen) h0 h1
      (by rw [hdevice]; exact hentry)
    exact ⟨s', false, nodes, hcode, h'', htable, ⟨by rw [htable], hfile, hadded.answers, hsaved,
      fun m hm _ hm1 => hkept m (.inr hm) hm1, fun _ => ⟨rfl, fun k _ => by rw [hdevice]⟩,
      Bool.noConfusion⟩, fun _ => hn'⟩
  | true =>
    obtain ⟨hvalid, k, e, hk, hnew, hdevice, hfree⟩ := hadded.done rfl
    have hd := h.volume.owned.onDevice 1 h.directory.node
    have hself := h.volume.owned.self 1 h.directory.node
    refine ⟨s', true, insert n nodes, hcode, h', htable, ⟨by rw [htable], hfile, hadded.answers,
      hsaved, fun m hm _ hm1 => hkept m (.inr hm) hm1, Bool.noConfusion, fun _ => ⟨hvalid, n, k, hn,
      rfl, hk, ?_, fun j hj hjk => ?_, fun hs => ?_, ?_, ?_⟩⟩, Bool.noConfusion⟩
    · rw [hdevice, entryAt_putEntry hd hself hnew.length h.directory.length hk]
      exact hnew
    · rw [hdevice, entryAt_putEntry_of_ne hd hself hnew.length h.directory.length hk hjk]
    · obtain ⟨-, hnone, -⟩ := (hadded.success hs).mp rfl
      exact ⟨hfree hs, hnone⟩
    · rw [(hkept n (.inl rfl) hunbound.ne_dir).1]
      exact hlength
    · exact (hkept n (.inl rfl) hunbound.ne_dir).2.trans hzeros

theorem RootAt.of_table (h : RootAt s a) (htable : s'.toOpenTable = s.toOpenTable) : RootAt s' a := by
  rw [RootAt, Fs.inode, htable]
  exact h

/-- **The conjunction in `filesys_create`.**  A sector that has been allocated for nothing is
reserved. -/
theorem Ordered.tryCreate (h : Ordered s nodes [a]) (hroot : RootAt s a) (hname : 0 ∈ name)
    (h0 : 0 ≤ size) (hlt : size < 2147483648) (junk : Memory) :
    ∃ s' sector ok nodes', s.tryCreate (some a) name size junk = some (s', sector, ok) ∧
      Ordered s' nodes' [a] ∧ s'.toOpenTable = s.toOpenTable ∧
      FileCreated s nodes (string name) size ok s' nodes' ∧
      (ok = false → sector ≠ 0 → Reserved s' nodes sector) := by
  obtain ⟨s₁, r, hcode₁, h₁, halloc, hreserved⟩ := h.allocate
  simp only [Fs.tryCreate, hcode₁, some_bind]
  have hkept₁ : Kept s nodes s₁ := h.kept_of_mapArea halloc.table halloc.freeMapFile halloc.answers
    (fun hs => halloc.saved (.inl hs) h.mapFile) halloc.device
  cases r with
  | none =>
    exact ⟨s₁, 0, false, nodes, rfl, h₁, halloc.table, hkept₁.not_created _ _,
      fun _ hne => absurd rfl hne⟩
  | some n =>
    have hn := hreserved n rfl
    obtain ⟨s₂, ok, hcode₂, hcreate, hfailed, hdone⟩ := h₁.create hn h0 hlt
    have hkept₂ : Kept s nodes s₂ := hkept₁.trans (hcreate.kept h₁ hn)
    have htable₂ : s₂.toOpenTable = s.toOpenTable := hcreate.table.trans halloc.table
    simp only [hcode₂, some_bind]
    cases ok with
    | false =>
      exact ⟨s₂, n, false, nodes, rfl, hfailed rfl, htable₂, hkept₂.not_created _ _,
        fun _ _ => (hcreate.failed rfl).2.1⟩
    | true =>
      obtain ⟨h₂, hunbound⟩ := hdone rfl
      obtain ⟨-, hcreated⟩ := hcreate.created rfl
      obtain ⟨s₃, ok, nodes', hcode₃, h₃, htable₃, hadded, hforgotten⟩ :=
        h₂.addCreated (hroot.of_table htable₂) hname hn.notMem hunbound
        (fun i hi => by
          rw [htable₂] at hi
          exact (h.volume.opened i hi).1) h.zero_mem h.directory.node
        (fun k hk huse => by
          rw [hkept₂.entry k hk] at huse ⊢
          exact (h.directory.entry k hk huse).node) junk hcreated.length_eq
        (by rw [contents, hcreated.length_eq]; exact hcreated.zeros)
      refine ⟨s₃, n, ok, nodes', by simp only [hcode₃, some_bind], h₃, htable₃.trans htable₂,
        ?_, fun hok _ => hforgotten hok⟩
      exact FileCreated.between hkept₂ hadded (Quiet.kept ⟨rfl, rfl, rfl, rfl, id⟩ nodes') h.zero_mem
        h.directory.node

/-- **`filesys_create`.** -/
theorem Ordered.filesysCreate (h : Ordered s nodes []) (hname : 0 ∈ name) (h0 : 0 ≤ size)
    (hlt : size < 2147483648) (junk : Memory) :
    ∃ s' ok nodes', s.filesysCreate name size junk = some (s', ok) ∧ Ordered s' nodes' [] ∧
      FileCreated s nodes (string name) size ok s' nodes' := by
  obtain ⟨s₁, r, hcode₁, h₁, hq₁, -, hroot, -⟩ := h.dirOpenRoot
  simp only [Fs.filesysCreate, hcode₁, some_bind]
  cases r with
  | none => exact ⟨s₁, false, nodes, rfl, h₁, (hq₁.kept nodes).not_created _ _⟩
  | some a =>
    have hroot₁ := hroot a rfl
    obtain ⟨s₂, sector, ok, nodes', hcode₂, h₂, htable₂, hcreated, hreserved⟩ :=
      h₁.tryCreate hroot₁ hname h0 hlt junk
    have hroot₂ := hroot₁.of_table htable₂
    simp only [hcode₂, some_bind]
    by_cases hrelease : ok = false ∧ sector ≠ 0
    · obtain ⟨rfl, hsector⟩ := hrelease
      obtain rfl := (hcreated.failed rfl).1
      obtain ⟨s₃, hcode₃, h₃, hreleased, hsame₃, hnil₃⟩ := h₂.release (hreserved rfl hsector)
      obtain ⟨s₄, hcode₄, h₄, hq₄, -⟩ := Ordered.dirClose (r := some a) h₃ (by
        rintro _ ⟨⟩
        exact hroot₂.of_table hreleased.table)
      have hkept₃ : Kept s₂ nodes' s₃ := h₂.kept_of_mapArea hreleased.table hreleased.freeMapFile
        (fun hs => (hnil₃ hs).1) (fun hs _ => (hnil₃ hs).2) hsame₃
      refine ⟨s₄, false, nodes', ?_, h₄, FileCreated.between (hq₁.kept nodes') hcreated
        (hkept₃.trans (hq₄.kept nodes')) h.zero_mem h.directory.node⟩
      rw [if_pos ⟨rfl, hsector⟩, hcode₃, some_bind, hcode₄, some_bind]
    · obtain ⟨s₄, hcode₄, h₄, hq₄, -⟩ := Ordered.dirClose (r := some a) h₂ (by
        rintro _ ⟨⟩
        exact hroot₂)
      refine ⟨s₄, ok, nodes', ?_, h₄, FileCreated.between (hq₁.kept nodes) hcreated (hq₄.kept nodes')
        h.zero_mem h.directory.node⟩
      rw [if_neg hrelease, hcode₄, some_bind]

/-! ## Opening a file -/

/-- The root directory is searched. -/
theorem Ordered.dirLookup (h : Ordered s nodes [a]) (hroot : RootAt s a) (hname : 0 ∈ name) :
    ∃ s' r, s.dirLookup a name = some (s', r) ∧ Ordered s' nodes (r.toList ++ [a]) ∧
      Looked s 1 16 (string name) r s' ∧ RootAt s' a := by
  obtain ⟨i, hi, hsector⟩ := hroot
  obtain ⟨s', r, hcode, hv, hdir, hlooked⟩ := h.directory.dirLookup h.volume hi hsector hname
  have hkept : ∀ b j j', s.inode b = some j → s'.inode b = some j' → j'.sector = j.sector :=
    fun b j _ hj => Fs.sector_of_core (hlooked.kept b j hj)
  refine ⟨s', r, hcode, ⟨hlooked.files ▸ hv, hdir, hlooked.freeMapFile ▸ h.mapFile,
    h.user.congr h.volume hlooked.files hlooked.freeMapFile hkept⟩, hlooked, ?_⟩
  obtain ⟨i', hi', -⟩ := hlooked.kept a i hi
  exact ⟨i', hi', (hkept a i i' hi hi').trans hsector⟩

/-- **What `filesys_open` does.** -/
structure FileOpened (s : Fs) (str : List Byte) (r : Option Nat) (s' : Fs) : Prop where
  device : s'.device = s.device
  freeMap : s'.freeMap = s.freeMap
  freeMapFile : s'.freeMapFile = s.freeMapFile
  answers : s.answers = [] → s'.answers = []
  failed : r = none → s'.files = s.files
  done : ∀ f, r = some f → ∃ b k i, s'.files = ⟨f, b, 0, false⟩ :: s.files ∧ k < 16 ∧
    Fs.Names s.device 1 k str ∧ s'.inode b = some i ∧ i.sector = entrySector (entryAt s.device 1 k)
  success : s.answers = [] → s.files.length < maxFiles → (∃ k, k < 16 ∧ Fs.Names s.device 1 k str) →
    r.isSome = true

/-- A file is opened for an inode that is in the directory. -/
theorem Ordered.fileOpen {b k : Nat} (h : Ordered s nodes [b]) (hi : s.inode b = some i) (hk : k < 16)
    (huse : entryInUse (entryAt s.device 1 k) = true)
    (hsector : i.sector = entrySector (entryAt s.device 1 k)) :
    ∃ s' r, s.fileOpen (some b) = some (s', r) ∧ Ordered s' nodes [] ∧ s'.device = s.device ∧
      s'.freeMap = s.freeMap ∧ s'.freeMapFile = s.freeMapFile ∧
      (s.answers = [] → s'.answers = []) ∧ (r = none → s'.files = s.files) ∧
      (∀ f, r = some f → s'.files = ⟨f, b, 0, false⟩ :: s.files ∧ s'.inode b = some i) ∧
      (s.answers = [] → s.files.length < maxFiles → r.isSome = true) := by
  have hentry := h.directory.entry k hk huse
  have h0 : i.sector ≠ 0 := hsector ▸ hentry.ne_zero
  have h1 : i.sector ≠ 1 := hsector ▸ hentry.ne_dir
  have hnil : s.answers = [] → s.answers.tail = [] := fun hs => by rw [hs]; rfl
  rw [Fs.fileOpen_eq]
  by_cases hroom : s.answers.headD true = true ∧ s.files.length < maxFiles
  · rw [if_pos hroom]
    have hv := h.volume.pushFile (mem_singleton_self b) hroom.2
    rw [erase_cons_head] at hv
    refine ⟨_, _, rfl, ⟨hv, h.directory.same rfl rfl, h.mapFile, ?_⟩, rfl, rfl, rfl, hnil, nofun, ?_,
      fun _ _ => rfl⟩
    · refine forall_mem_cons.mpr ⟨fun _ j hj => ?_, h.user⟩
      obtain rfl : i = j := Option.some.inj (hi.symm.trans hj)
      exact ⟨h0, h1⟩
    · rintro _ ⟨⟩
      exact ⟨rfl, hi⟩
  · rw [if_neg hroom]
    have hkeep : i.removed = false := by
      by_contra hrem
      exact (h.directory.removed i (mem_of_get hi)
        (Bool.eq_true_of_not_eq_false hrem)).2.2 k hk huse hsector.symm
    obtain ⟨s', hcode, h', hquiet, -⟩ := (h.withAnswers s.answers.tail).closeKept
      (nodup_singleton b) (mem_singleton_self b) hi h0 hkeep
    rw [erase_cons_head] at h'
    refine ⟨s', none, by rw [hcode, Option.bind_some], h', hquiet.device, hquiet.freeMap,
      hquiet.freeMapFile, fun hs => hquiet.answers (hnil hs), fun _ => hquiet.files, nofun,
      fun hs hlt => absurd ⟨?_, hlt⟩ hroom⟩
    rw [hs]
    rfl

/-- **`filesys_open`.** -/
theorem Ordered.filesysOpen (h : Ordered s nodes []) (hname : 0 ∈ name) :
    ∃ s' r, s.filesysOpen name = some (s', r) ∧ Ordered s' nodes [] ∧
      FileOpened s (string name) r s' := by
  obtain ⟨s₁, r₁, hcode₁, h₁, hq₁, -, hroot, hsuccess₁⟩ := h.dirOpenRoot
  simp only [Fs.filesysOpen, hcode₁, some_bind]
  cases r₁ with
  | none =>
    have h₂ := h₁.withAnswers s₁.answers.tail
    simp only [some_bind, Fs.dirClose, Fs.fileOpen, Fs.malloc_eq]
    refine ⟨_, none, rfl, h₂, hq₁.device, hq₁.freeMap, hq₁.freeMapFile,
      fun hs => by rw [hq₁.answers hs]; rfl, fun _ => hq₁.files, nofun, fun hs => ?_⟩
    exact absurd (hsuccess₁ hs) (by decide)
  | some a =>
    obtain ⟨s₂, r₂, hcode₂, h₂, hlooked, hroot₂⟩ := h₁.dirLookup (hroot a rfl) hname
    simp only [hcode₂, some_bind, Fs.dirClose]
    have hq₂ : Quiet s s₂ := hq₁.trans
      ⟨hlooked.files, hlooked.device, hlooked.freeMap, hlooked.freeMapFile, hlooked.answers⟩
    cases r₂ with
    | none =>
      obtain ⟨s₃, hcode₃, h₃, hq₃, -⟩ := h₂.closeRoot (nodup_singleton a)
        (mem_singleton_self a) hroot₂
      rw [Option.toList_none, nil_append, erase_cons_head] at h₃
      simp only [hcode₃, some_bind, Fs.fileOpen, Fs.malloc_eq]
      have hq := hq₂.trans hq₃
      refine ⟨_, none, rfl, h₃.withAnswers s₃.answers.tail, hq.device, hq.freeMap, hq.freeMapFile,
        fun hs => by rw [hq.answers hs]; rfl, fun _ => hq.files, nofun, fun hs _ hex => ?_⟩
      rw [← hq₁.device] at hex
      exact absurd (hlooked.success (hq₁.answers hs) hex) (by decide)
    | some b =>
      obtain ⟨k, i, hk, hnames, hi, hsector⟩ := hlooked.found b rfl
      rw [hq₁.device] at hnames hsector
      have hba : b ≠ a := by
        rintro rfl
        obtain ⟨j, hj, hj1⟩ := hroot₂
        rw [Option.some.inj (hj.symm.trans hi), hsector] at hj1
        exact (h.directory.entry k hk hnames.1).ne_dir hj1
      obtain ⟨s₃, hcode₃, h₃, hq₃, hkept₃⟩ := h₂.closeRoot (nodup_cons.mpr
        ⟨by simpa using hba, nodup_singleton a⟩) (mem_cons_of_mem b (mem_singleton_self a))
        hroot₂
      have herase : ((some b).toList ++ [a]).erase a = [b] := by simp [hba]
      rw [herase] at h₃
      have hq := hq₂.trans hq₃
      obtain ⟨s₄, r, hcode₄, h₄, hdevice₄, hmap₄, hfile₄, hanswers₄, hnone, hsome, hsuccess₄⟩ :=
        h₃.fileOpen (k := k) (hkept₃ b i hba hi) hk (by rw [hq.device]; exact hnames.1)
          (by rw [hq.device]; exact hsector)
      refine ⟨s₄, r, by simp only [hcode₃, some_bind, hcode₄], h₄, hdevice₄.trans hq.device,
        hmap₄.trans hq.freeMap, hfile₄.trans hq.freeMapFile, fun hs => hanswers₄ (hq.answers hs),
        fun hr => (hnone hr).trans hq.files, fun f hf => ?_,
        fun hs hlt _ => hsuccess₄ (hq.answers hs) (hq.files ▸ hlt)⟩
      obtain ⟨hpush, hi₄⟩ := hsome f hf
      exact ⟨b, k, i, hq.files ▸ hpush, hk, hnames, hi₄, hsector⟩

/-! ## Removing a file -/

/-- **What `filesys_remove` does.** -/
structure FileRemoved (s : Fs) (nodes : Set Nat) (str : List Byte) (ok : Bool) (s' : Fs)
    (nodes' : Set Nat) : Prop where
  files : s'.files = s.files
  freeMapFile : s'.freeMapFile = s.freeMapFile
  answers : s.answers = [] → s'.answers = []
  saved : s.answers = [] → Saved s.device s.freeMap → Saved s'.device s'.freeMap
  sub : nodes' ⊆ nodes
  kept : ∀ m ∈ nodes, m ≠ 0 → m ≠ 1 → inodeAt s'.device m = inodeAt s.device m ∧
    contents s'.device m = contents s.device m
  failed : ok = false → s'.device = s.device ∧ s'.freeMap = s.freeMap ∧ nodes' = nodes
  done : ok = true → ∃ k, k < 16 ∧ Fs.Names s.device 1 k str ∧
    entryInUse (entryAt s'.device 1 k) = false ∧
    (∀ j, j < 16 → j ≠ k → entryAt s'.device 1 j = entryAt s.device 1 j) ∧
    ∀ m ∈ nodes, m ∉ nodes' → m = entrySector (entryAt s.device 1 k)
  success : s.answers = [] → (ok = true ↔ ∃ k, k < 16 ∧ Fs.Names s.device 1 k str)

/-- **`filesys_remove`.** -/
theorem Ordered.filesysRemove (h : Ordered s nodes []) (hname : 0 ∈ name) :
    ∃ s' ok nodes', s.filesysRemove name = some (s', ok) ∧ Ordered s' nodes' [] ∧
      FileRemoved s nodes (string name) ok s' nodes' := by
  obtain ⟨s₁, r₁, hcode₁, h₁, hq₁, -, hroot, hsuccess₁⟩ := h.dirOpenRoot
  simp only [Fs.filesysRemove, hcode₁, some_bind]
  cases r₁ with
  | none =>
    have hkept := hq₁.kept nodes
    exact ⟨s₁, false, nodes, rfl, h₁, hq₁.files, hq₁.freeMapFile, hq₁.answers, hkept.saved,
      fun _ => id, hkept.kept, fun _ => ⟨hq₁.device, hq₁.freeMap, rfl⟩, Bool.noConfusion,
      fun hs => absurd (hsuccess₁ hs) (by decide)⟩
  | some a =>
    obtain ⟨i, hi, hsector⟩ := hroot a rfl
    -- an inode of the directory has no more handles than files
    have hlast : ∀ b j, s₁.inode b = some j →
        (∃ k, k < 16 ∧ entryInUse (entryAt s₁.device 1 k) = true ∧
          entrySector (entryAt s₁.device 1 k) = j.sector) →
        wrap (users s₁.files [a] b) = 0 → ∀ f ∈ s₁.files, f.inode ≠ b := by
      rintro b j hj ⟨k, hk, huse, heq⟩ hwrap f hf hfb
      have hba : b ≠ a := by
        rintro rfl
        rw [← Option.some.inj (hi.symm.trans hj), hsector] at heq
        exact (h₁.directory.entry k hk huse).ne_dir heq
      rw [Counted.users_cons_ne hba] at hwrap
      exact no_file_of_users h₁.volume.few hwrap f hf hfb
    obtain ⟨s₂, ok, nodes', held', hcode₂, hv₂, hdir₂, hremoved⟩ :=
      h₁.directory.dirRemove h₁.volume hi hsector h₁.mapFile hlast hname
    have hheld : held' = [a] := by
      obtain ⟨b, hba, heq | heq⟩ := hremoved.held
      · exact heq
      · rw [heq, Option.toList_some, filter_cons_of_pos (by simpa using Ne.symm hba)]
        rfl
    subst hheld
    have h₂ : Ordered s₂ nodes' [a] := ⟨hremoved.files ▸ hv₂, hdir₂,
      hremoved.freeMapFile ▸ h₁.mapFile,
      h₁.user.congr h₁.volume hremoved.files hremoved.freeMapFile hremoved.sector⟩
    obtain ⟨s₃, hcode₃, h₃, hq₃, -⟩ := Ordered.dirClose (r := some a) h₂ (by
      rintro _ ⟨⟩
      exact hremoved.opened)
    refine ⟨s₃, ok, nodes', by simp only [hcode₂, some_bind, hcode₃], h₃,
      hq₃.files.trans (hremoved.files.trans hq₁.files),
      hq₃.freeMapFile.trans (hremoved.freeMapFile.trans hq₁.freeMapFile),
      fun hs => hq₃.answers (hremoved.answers (hq₁.answers hs)), fun hs hsave => ?_, hremoved.sub,
      fun m hm hm0 hm1 => ?_, fun hok => ?_, fun hok => ?_, fun hs => ?_⟩
    · rw [hq₃.device, hq₃.freeMap]
      rw [← hq₁.device, ← hq₁.freeMap] at hsave
      exact hremoved.saved (hq₁.answers hs) hsave
    · rw [hq₃.device, ← hq₁.device]
      cases ok with
      | false =>
        rw [(hremoved.failed rfl).1]
        exact ⟨rfl, rfl⟩
      | true =>
        obtain ⟨k, -, -, -, -, hsame, -⟩ := hremoved.done rfl
        refine contents_of_unchanged hsame (h₁.volume.owned.onDevice m hm) fun x hx =>
          ⟨h₁.volume.not_mapArea_of_area hm hm0 hx, fun hhas => ?_⟩
        exact h₁.volume.owned.apart m hm 1 h₁.directory.node hm1 x hx (.inr hhas)
    · obtain ⟨hdevice, hmap, hnodes⟩ := hremoved.failed hok
      exact ⟨hq₃.device.trans (hdevice.trans hq₁.device), hq₃.freeMap.trans (hmap.trans hq₁.freeMap),
        hnodes⟩
    · obtain ⟨k, hk, hnames, hfree, hother, -, hlost⟩ := hremoved.done hok
      rw [hq₁.device] at hnames hother hlost
      rw [← hq₃.device] at hfree hother
      exact ⟨k, hk, hnames, hfree, hother, hlost⟩
    · rw [← hq₁.device]
      exact hremoved.success (hq₁.answers hs)

/-! ## Reading, writing and closing a file -/

variable {f : Nat} {file : File}

section
variable (h : Ordered s nodes held)
include h

theorem Ordered.sector_ne (hf : s.file f = some file) (huser : s.freeMapFile ≠ some f)
    (hi : s.inode file.inode = some i) :
    i.sector ≠ 0 ∧ i.sector ≠ 1 := by
  refine h.user file (mem_of_get hf) ?_ i hi
  rwa [Objects.key_of_get hf]

/-- The position of a file changes. -/
theorem Ordered.setPos (f : Nat) (g : File → Nat) :
    Ordered (s.setFile f fun file => { file with pos := g file }) nodes held := by
  refine ⟨h.volume.setPos f g, h.directory.same rfl rfl, h.mapFile, ?_⟩
  exact Objects.forall_modify (fun _ => Iff.rfl) h.user

/-- **`file_read`.** -/
theorem Ordered.fileRead (hf : s.file f = some file) (hi : s.inode file.inode = some i)
    (size : Int) :
    ∃ r, let s' := Fs.setFile { s with answers := s.answers.tail } f fun file =>
        { file with pos := file.pos + r }
      s.fileRead f size = some (s', s.device.bytes.load (i.data.at file.pos) r) ∧
      Ordered s' nodes held ∧ r ≤ i.data.available size file.pos ∧ (s.answers = [] → r = i.data.available size file.pos) := by
  obtain ⟨r, hcode, hle, hall, -⟩ := Fs.inodeReadAt_spec hi
    (h.volume.onDevice (mem_of_get hi)) size file.pos
  refine ⟨r, ?_, (h.withAnswers s.answers.tail).setPos f fun file => file.pos + r, hle,
    fun hs => hall (by rw [hs]; rfl)⟩
  simp only [Fs.fileRead, hf, some_bind, hcode, Memory.length_load]

end

/-- The device after a write of `w` bytes to a file. -/
def written (s : Fs) (i : Inode) (pos : Nat) (buffer : List Byte) (w : Nat) : Device :=
  { s.device with bytes := s.device.bytes.store (i.data.at pos) (buffer.take w) }

/-- **`file_write`.** -/
theorem Ordered.fileWrite (h : Ordered s nodes held) (hf : s.file f = some file)
    (huser : s.freeMapFile ≠ some f) (hi : s.inode file.inode = some i) {buffer : List Byte}
    (hbuffer : size ≤ buffer.length) :
    ∃ w, let device := written s i file.pos buffer w
      let s' := Fs.setFile { s with answers := s.answers.tail, device } f fun file =>
        { file with pos := file.pos + w }
      s.fileWrite f buffer size = some (s', w) ∧ Ordered s' nodes held ∧
      w ≤ i.data.available size file.pos ∧
      (s.answers = [] → w = i.data.available size file.pos) ∧
      Unchanged s.device device (fun k => ¬(inodeAt s.device i.sector).Has k) := by
  have hmem := mem_of_get hi
  obtain ⟨hnode, hdata⟩ := h.volume.opened i hmem
  have hdevice := h.volume.onDevice hmem
  obtain ⟨-, h1⟩ := h.sector_ne hf huser hi
  obtain ⟨w, hcode, hle, hall, -⟩ := Fs.inodeWriteAt_spec hi hdevice (h.volume.denyWriteCnt hmem)
    hbuffer file.pos
  have hsame : Unchanged s.device (written s i file.pos buffer w) fun k =>
      ¬(inodeAt s.device i.sector).Has k := by
    rw [← hdata]
    rcases Nat.eq_zero_or_pos w with rfl | hpos
    · rw [written, take_zero, Memory.store_nil]
      exact Unchanged.refl _ _
    · refine unchanged_store hdevice ?_
      have hlength : (buffer.take w).length ≤ w := length_take_le _ _
      rw [InodeDisk.available] at hle
      omega
  have h' : Ordered { s with answers := s.answers.tail, device := written s i file.pos buffer w }
      nodes held := by
    refine ⟨h.volume.withDevice hsame (fun n hn => h.volume.owned.not_has hn hnode) s.answers.tail,
      h.directory.congr h.volume.owned hsame (fun k hk hhas => ?_) h.directory.node
        (fun k hk huse => (h.directory.entry k hk huse).node) fun j hj hrem => ⟨j, hj, rfl, hrem⟩,
      h.mapFile, h.user⟩
    exact h.volume.owned.apart 1 h.directory.node i.sector hnode (Ne.symm h1) k hk (.inr hhas)
  refine ⟨w, ?_, h'.setPos f fun file => file.pos + w, hle, fun hs => hall (by rw [hs]; rfl), hsame⟩
  simp only [Fs.fileWrite, hf, some_bind, hcode, written]

/-- **`file_close`.** -/
theorem Ordered.fileClose (h : Ordered s nodes []) (hf : s.file f = some file)
    (huser : s.freeMapFile ≠ some f) (hi : s.inode file.inode = some i) :
    ∃ s₁ nodes', s.fileClose f = some
        { s₁ with files := Objects.release File.addr s.files f } ∧
      Ordered { s₁ with files := Objects.release File.addr s.files f } nodes' [] ∧
      Closed s nodes [file.inode] file.inode i s₁ nodes' [] := by
  have hmem := mem_of_get hf
  have hdeny : file.denyWrite = false := h.volume.allowed file hmem
  obtain ⟨h0, -⟩ := h.sector_ne hf huser hi
  -- the file is no handle any more, its inode is
  have hsub : ∀ g ∈ Objects.release File.addr s.files f, g ∈ s.files := fun g hg =>
    (Objects.mem_release.mp hg).1
  have hfew : (Objects.release File.addr s.files f).length ≤ maxFiles :=
    (length_filter_le _ _).trans h.volume.few
  have hv : Volume s (Objects.release File.addr s.files f) nodes [file.inode] :=
    ⟨h.volume.counted.closeFile hf hdeny, h.volume.owned, h.volume.opened,
      fun g hg => h.volume.allowed g (hsub g hg), hfew, h.volume.map⟩
  obtain ⟨s₁, nodes', held', hclose, hv₁, hclosed⟩ := hv.inodeClose (mem_singleton_self _) hi
    (no_file_of_wrap (nodup_singleton _) (mem_singleton_self _) hfew) (fun _ => h0)
    fun _ => h.mapFile
  obtain rfl := hclosed.held_eq (nodup_singleton _)
  rw [erase_cons_head] at hv₁ hclosed
  have hdir : Directory s₁ nodes' 1 16 := h.directory.close hv hclosed hi
  refine ⟨s₁, nodes', ?_, ⟨⟨hv₁.counted, hv₁.owned, hv₁.opened, hv₁.allowed, hv₁.few,
    fun g hg => ?_⟩, hdir.same rfl rfl,
    ?_, fun g hg hne j hj => ?_⟩, hclosed⟩
  · simp only [Fs.fileClose, Fs.fileAllowWrite, hf, some_bind, hdeny, Bool.false_eq_true, if_false,
      hclose, hclosed.files]
  · obtain ⟨hnode, hlength, gfile, j, hgfile, hj, hsector⟩ := hv₁.map g hg
    refine ⟨hnode, hlength, gfile, j, ?_, hj, hsector⟩
    have hgf : g ≠ f := by
      rintro rfl
      exact huser (hclosed.freeMapFile.symm.trans hg)
    rw [Fs.file, hclosed.files] at hgfile
    exact (Objects.get_release_of_ne hgf).trans hgfile
  · exact hclosed.freeMapFile ▸ h.mapFile
  · have hg' := hsub g hg
    obtain ⟨j₀, hj₀⟩ := h.volume.counted.get_of_file hg'
    have hsector := hclosed.sector_eq hv hj₀ hj
    rw [hsector]
    exact h.user g hg' (fun heq => hne (hclosed.freeMapFile.trans heq)) j₀ hj₀

/-! ## A formatted file system -/

/-- Data that is all zeros has no entry in use. -/
theorem entryInUse_of_zeros {d : Device} {c k : Nat} (hk : k < c)
    (hzeros : d.bytes.load ((inodeAt d n).at 0) (entrySize * c) = List.replicate (entrySize * c) 0) :
    entryInUse (entryAt d n k) = false := by
  have hle : entrySize * k + entrySize ≤ entrySize * c := by
    rw [← Nat.mul_succ]
    exact Nat.mul_le_mul_left entrySize hk
  have hentry : entryAt d n k = List.replicate entrySize 0 := by
    have hslice := congrArg (fun bytes => (bytes.drop (entrySize * k)).take entrySize) hzeros
    simp only [Memory.drop_load, Memory.take_load, drop_replicate, take_replicate] at hslice
    have hmin : min entrySize (entrySize * c - entrySize * k) = entrySize := by omega
    rw [hmin, InodeDisk.at, Nat.add_zero] at hslice
    rw [entryAt, InodeDisk.at]
    exact hslice
  rw [hentry]
  decide

/-- **A formatted file system is in order.** -/
theorem Formatted.ordered (h : Formatted s) : Ordered s {1, 0} [] := by
  obtain ⟨next, hstate⟩ := h.mounted
  have hfiles : s.files = [⟨next + 1, next, 0, false⟩] := by rw [hstate]; rfl
  have hinodes : s.inodes = [⟨next, 0, 1, false, 0, inodeAt s.device 0⟩] := by rw [hstate]; rfl
  have hmap : s.freeMapFile = some (next + 1) := by rw [hstate]; rfl
  have hv := mounted_volume h.owned (.inr rfl) h.mapLength next s.answers
  rw [← hstate] at hv
  have hfree : ∀ k, k < 16 → entryInUse (entryAt s.device 1 k) = false := fun k hk =>
    entryInUse_of_zeros hk (by
      rw [show entrySize * 16 = 320 from rfl]
      exact h.zeros)
  refine ⟨hv, ⟨.inl rfl, by decide, h.rootLength, fun k hk huse => ?_, fun j hj _ _ huse => ?_, ?_⟩,
    by rw [hmap]; rfl, ?_⟩
  · exact absurd ((hfree k hk).symm.trans huse) (by decide)
  · exact absurd ((hfree j hj).symm.trans huse) (by decide)
  · rw [hinodes]
    exact forall_mem_singleton.mpr nofun
  · rw [UserFiles, hfiles]
    exact forall_mem_singleton.mpr fun hne => absurd hmap hne

end Order

end Pintos.Filesys
