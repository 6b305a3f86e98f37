import Pintos.FileSystem

/-!
# Ownership of sectors

A caller of the file system makes, opens and removes files by name, and reads, writes and
closes the files it has opened, in any order (`Call`).  A call may fail, for want of memory or
of room; a file may be removed while it is open, and its name used again before it is closed.

What owns sectors is said in three places: by the entries of the root directory, by the inodes
on the device, and by the open inodes in memory that have been removed (`owners`).  **No sector
belongs to two files** (`sectors_apart`): in every run from a formatted file system the sectors
of different owners are different, on the device and marked in the free map, every call
returns, and a write to a file leaves the bytes of every other file alone.
-/

namespace Pintos.Filesys
open List

open CString TransitionSystem

/-! ## Calls -/

/-- A call.  A file is given by its address; `junk` is what is on the stack of `dir_add`. -/
inductive Call where
  | create (name : CharPtr) (initialSize : Int) (junk : Memory)
  | open (name : CharPtr)
  | read (f : Nat) (size : Int)
  | write (f : Nat) (buffer : List Byte) (size : Int)
  | remove (name : CharPtr)
  | close (f : Nat)

namespace Fs

/-- The code of a call. -/
def exec (s : Fs) : Call → Option Fs
  | .create name initialSize junk => (s.filesysCreate name initialSize junk).map Prod.fst
  | .open name => (s.filesysOpen name).map Prod.fst
  | .read f size => (s.fileRead f size).map Prod.fst
  | .write f buffer size => (s.fileWrite f buffer size).map Prod.fst
  | .remove name => (s.filesysRemove name).map Prod.fst
  | .close f => s.fileClose f

/-- A file that a caller has opened and not closed; the free map keeps its own. -/
def IsUserFile (s : Fs) (f : Nat) : Prop :=
  (s.file f).isSome = true ∧ s.freeMapFile ≠ some f

/-- Names are strings, sizes are `off_t`s, a buffer has the bytes that are to be written, and
callers use files they have opened. -/
def Allowed (s : Fs) : Call → Prop
  | .create name initialSize _ => 0 ∈ name ∧ -2147483648 ≤ initialSize ∧ initialSize < 2147483648
  | .open name | .remove name => 0 ∈ name
  | .read f _ | .close f => s.IsUserFile f
  | .write f buffer size => s.IsUserFile f ∧ size ≤ buffer.length

/-- A file system that has just been formatted. -/
def Start (s : Fs) : Prop :=
  ∃ device words answers, filesysInit device words answers true = some s

/-- The system. -/
def system : TransitionSystem Fs Call :=
  .checked Start Allowed exec

section
variable {s : Fs} {name : CharPtr} {size : Int} {junk : Memory} (hneg : size < 0)
include hneg

/-- `inode_create` stops at a size that is negative, so that `filesys_create` returns only
where it does not come that far. -/
theorem tryCreate_of_neg {dir : Option Nat} {r : Fs × Nat × Bool}
    (h : s.tryCreate dir name size junk = some r) :
    s.tryCreate dir name 0 junk = some r := by
  cases dir with
  | none => exact h
  | some a =>
    obtain ⟨⟨s₁, sector⟩, hallocate, h⟩ := of_bind h
    rw [Fs.tryCreate, hallocate, some_bind]
    cases sector with
    | none => exact h
    | some sector =>
      obtain ⟨_, hcreate, -⟩ := of_bind h
      obtain ⟨_, hlength, -⟩ := of_bind hcreate
      have hlength : 0 ≤ size := of_assert hlength
      omega

theorem filesysCreate_of_neg {r : Fs × Bool} (h : s.filesysCreate name size junk = some r) :
    s.filesysCreate name 0 junk = some r := by
  obtain ⟨⟨s₁, dir⟩, hopen, h⟩ := of_bind h
  obtain ⟨r₂, htry, h⟩ := of_bind h
  simp only [Fs.filesysCreate, hopen, some_bind, tryCreate_of_neg hneg htry]
  exact h

end

end Fs

/-! ## Order in runs -/

section Runs
variable {s s' : Fs} {nodes : Set Nat} {c : Call}

theorem Ordered.userFile {f : Nat} (h : Ordered s nodes []) (hf : s.IsUserFile f) :
    ∃ file i, s.file f = some file ∧ s.inode file.inode = some i := by
  obtain ⟨file, hfile⟩ := Option.isSome_iff_exists.mp hf.1
  obtain ⟨i, hi⟩ := h.volume.counted.get_of_file (Objects.mem_of_get hfile)
  exact ⟨file, i, hfile, hi⟩

/-- **Every call returns**, and leaves the file system in order. -/
theorem Ordered.exec (h : Ordered s nodes []) (hc : s.Allowed c)
    (hsize : ∀ name size junk, c = .create name size junk → 0 ≤ size) :
    ∃ s' nodes', s.exec c = some s' ∧ Ordered s' nodes' [] := by
  cases c with
  | create name size junk =>
    obtain ⟨s', ok, nodes', hcode, h', -⟩ :=
      h.filesysCreate hc.1 (hsize name size junk rfl) hc.2.2 junk
    exact ⟨s', nodes', by rw [Fs.exec, hcode]; rfl, h'⟩
  | «open» name =>
    obtain ⟨s', r, hcode, h', -⟩ := h.filesysOpen hc
    exact ⟨s', nodes, by rw [Fs.exec, hcode]; rfl, h'⟩
  | read f size =>
    obtain ⟨file, i, hf, hi⟩ := h.userFile hc
    obtain ⟨r, hcode, h', -⟩ := h.fileRead hf hi size
    exact ⟨_, nodes, by rw [Fs.exec, hcode]; rfl, h'⟩
  | write f buffer size =>
    obtain ⟨file, i, hf, hi⟩ := h.userFile hc.1
    obtain ⟨w, hcode, h', -⟩ := h.fileWrite hf hc.1.2 hi hc.2
    exact ⟨_, nodes, by rw [Fs.exec, hcode]; rfl, h'⟩
  | remove name =>
    obtain ⟨s', ok, nodes', hcode, h', -⟩ := h.filesysRemove hc
    exact ⟨s', nodes', by rw [Fs.exec, hcode]; rfl, h'⟩
  | close f =>
    obtain ⟨file, i, hf, hi⟩ := h.userFile hc
    obtain ⟨s₁, nodes', hcode, h', -⟩ := h.fileClose hf hc.2 hi
    exact ⟨_, nodes', hcode, h'⟩

/-- A call that returns does what a call does whose size is not negative. -/
theorem Fs.exec_nonneg (hc : s.Allowed c) (hcode : s.exec c = some s') :
    ∃ c', s.Allowed c' ∧ (∀ name size junk, c' = .create name size junk → 0 ≤ size) ∧
      s.exec c' = some s' := by
  by_cases hsize : ∀ name size junk, c = .create name size junk → 0 ≤ size
  · exact ⟨c, hc, hsize, hcode⟩
  · push Not at hsize
    obtain ⟨name, size, junk, rfl, hneg⟩ := hsize
    obtain ⟨r, hr, rfl⟩ := Option.map_eq_some_iff.mp hcode
    refine ⟨.create name 0 junk, ⟨hc.1, by decide, by decide⟩, ?_, ?_⟩
    · rintro _ _ _ ⟨⟩
      exact Int.le_refl 0
    · rw [Fs.exec, Fs.filesysCreate_of_neg hneg hr]
      rfl

/-- A step leaves the file system in order. -/
theorem Ordered.step (h : Ordered s nodes []) (hc : s.Allowed c) (hcode : s.exec c = some s') :
    ∃ nodes', Ordered s' nodes' [] := by
  obtain ⟨c', hc', hsize, hcode'⟩ := Fs.exec_nonneg hc hcode
  obtain ⟨s'', nodes', hexec, h'⟩ := h.exec hc' hsize
  cases hexec.symm.trans hcode'
  exact ⟨nodes', h'⟩

variable {N : Nat} {state : Nat → Fs} {label : Nat → Call}

/-- **In every run the file system stays in order.** -/
theorem ordered_run (hrun : Fs.system.Run N state label) {t : Nat} (ht : t ≤ N) :
    ∃ nodes, Ordered (state t) nodes [] := by
  refine (hrun.reachable ht).invariant (P := fun s => ∃ nodes, Ordered s nodes []) ?_ ?_
  · rintro s ⟨device, words, answers, hinit⟩
    exact ⟨_, (formatted_of_init hinit).1.ordered⟩
  · rintro s c s' ⟨nodes, h⟩ ⟨hc, hcode⟩
    exact h.step hc hcode

end Runs

/-! ## Owners -/

/-- The sectors of the inode in a sector: this one, and those of its data. -/
def sectors (d : Device) (n : Nat) : List Nat :=
  n :: List.range' (inodeAt d n).start (bytesToSectors (inodeAt d n).length)

/-- The sectors of the inodes for which there are entries in the root directory. -/
def boundSectors (d : Device) : List Nat :=
  ((List.range 16).filter fun k => entryInUse (entryAt d 1 k)).map fun k =>
    entrySector (entryAt d 1 k)

/-- The sectors of the inodes that have been removed and are still open. -/
def removedSectors (s : Fs) : List Nat :=
  (s.inodes.filter fun i => i.removed).map Inode.sector

/-- **What owns sectors**: the inodes of the free map, of the root directory, of its entries,
and of removed files that are still open. -/
def owners (s : Fs) : List Nat :=
  0 :: 1 :: (boundSectors s.device ++ removedSectors s)

/-- **No sector belongs to two owners**, and they are on the device and marked.  The open
inodes in memory are those on the device, and the root directory has its 16 entries. -/
structure SectorsApart (s : Fs) : Prop where
  apart : ((owners s).flatMap (sectors s.device)).Nodup
  inside : ∀ n ∈ owners s, ∀ k ∈ sectors s.device n, k < s.device.size
  marked : ∀ n ∈ owners s, ∀ k ∈ sectors s.device n, s.freeMap.bit k = true
  copied : ∀ i ∈ s.inodes, i.data = inodeAt s.device i.sector
  root : (inodeAt s.device 1).length = 16 * 20

section Owners
variable {s : Fs} {nodes : Set Nat} {d : Device} {n k : Nat}

theorem mem_sectors : k ∈ sectors d n ↔ Area d n k := by
  rw [sectors, mem_cons, mem_range'_1]
  rfl

theorem mem_boundSectors : n ∈ boundSectors d ↔
    ∃ k, k < 16 ∧ entryInUse (entryAt d 1 k) = true ∧ entrySector (entryAt d 1 k) = n := by
  simp only [boundSectors, mem_map, mem_filter, mem_range, and_assoc]

theorem mem_removedSectors : n ∈ removedSectors s ↔
    ∃ i ∈ s.inodes, i.removed = true ∧ i.sector = n := by
  simp only [removedSectors, mem_map, mem_filter, and_assoc]

theorem nodup_sectors (h : ¬(inodeAt d n).Has n) : (sectors d n).Nodup := by
  refine nodup_cons.mpr ⟨fun hmem => h ?_, nodup_range'⟩
  exact mem_range'_1.mp hmem

section
variable (h : Ordered s nodes [])
include h

/-- The owners are among the inodes of the volume. -/
theorem Ordered.owners_sub : ∀ n ∈ owners s, n ∈ nodes := by
  intro n hn
  simp only [owners, mem_cons, mem_append] at hn
  rcases hn with rfl | rfl | hbound | hremoved
  · exact h.zero_mem
  · exact h.directory.node
  · obtain ⟨k, hk, huse, rfl⟩ := mem_boundSectors.mp hbound
    exact (h.directory.entry k hk huse).node
  · obtain ⟨i, hi, -, rfl⟩ := mem_removedSectors.mp hremoved
    exact (h.volume.opened i hi).1

theorem Ordered.nodup_boundSectors : (boundSectors s.device).Nodup := by
  refine (nodup_range.filter _).map_on ?_
  intro j hj k hk heq
  simp only [mem_filter, mem_range] at hj hk
  exact h.directory.apart j hj.1 k hk.1 hj.2 hk.2 heq

theorem Ordered.nodup_removedSectors : (removedSectors s).Nodup := by
  refine pairwise_map.mpr ?_
  exact h.volume.counted.sectors.filter _

/-- No inode is named twice. -/
theorem Ordered.nodup_owners : (owners s).Nodup := by
  have hbound : ∀ n ∈ boundSectors s.device, n ≠ 0 ∧ n ≠ 1 ∧ n ∉ removedSectors s := by
    intro n hn
    obtain ⟨k, hk, huse, rfl⟩ := mem_boundSectors.mp hn
    have hentry := h.directory.entry k hk huse
    refine ⟨hentry.ne_zero, hentry.ne_dir, fun hmem => ?_⟩
    obtain ⟨i, hi, hrem, heq⟩ := mem_removedSectors.mp hmem
    exact (h.directory.removed i hi hrem).2.2 k hk huse heq.symm
  have hremoved : ∀ n ∈ removedSectors s, n ≠ 0 ∧ n ≠ 1 := by
    intro n hn
    obtain ⟨i, hi, hrem, rfl⟩ := mem_removedSectors.mp hn
    exact ⟨(h.directory.removed i hi hrem).1, (h.directory.removed i hi hrem).2.1⟩
  refine nodup_cons.mpr ⟨?_, nodup_cons.mpr ⟨?_, ?_⟩⟩
  · simp only [mem_cons, mem_append, not_or]
    exact ⟨by decide, fun hmem => (hbound 0 hmem).1 rfl, fun hmem => (hremoved 0 hmem).1 rfl⟩
  · simp only [mem_append, not_or]
    exact ⟨fun hmem => (hbound 1 hmem).2.1 rfl, fun hmem => (hremoved 1 hmem).2 rfl⟩
  · refine nodup_append'.mpr ⟨h.nodup_boundSectors, h.nodup_removedSectors, ?_⟩
    exact fun n hn hn' => (hbound n hn).2.2 hn'

theorem Ordered.sectorsApart : SectorsApart s := by
  have howned := h.volume.owned
  refine ⟨nodup_flatMap.mpr ⟨fun n hn => ?_, ?_⟩, fun n hn k hk => ?_, fun n hn k hk => ?_,
    fun i hi => (h.volume.opened i hi).2, h.directory.length⟩
  · exact nodup_sectors (howned.self n (h.owners_sub n hn))
  · refine h.nodup_owners.imp_of_mem fun {n m} hn hm hne => ?_
    intro k hk hk'
    exact howned.apart n (h.owners_sub n hn) m (h.owners_sub m hm) hne k (mem_sectors.mp hk)
      (mem_sectors.mp hk')
  · exact howned.area_lt (h.owners_sub n hn) (mem_sectors.mp hk)
  · exact howned.marked n (h.owners_sub n hn) k (mem_sectors.mp hk)

end

end Owners

/-! ## Writes -/

/-- The inode of an open file. -/
def Fs.inodeOf (s : Fs) (f : Nat) : Option Inode := do
  s.inode (← s.file f).inode

section Writes
variable {s s' : Fs} {nodes : Set Nat}

/-- **A write to a file changes no other inode** and none of its bytes. -/
theorem Ordered.write_other {f : Nat} {buffer : List Byte} {size : Int} (h : Ordered s nodes [])
    (hc : s.Allowed (.write f buffer size)) (hcode : s.exec (.write f buffer size) = some s') :
    ∃ i, s.inodeOf f = some i ∧ ∀ n ∈ nodes, n ≠ i.sector →
      inodeAt s'.device n = inodeAt s.device n ∧ contents s'.device n = contents s.device n := by
  obtain ⟨file, i, hf, hi⟩ := h.userFile hc.1
  obtain ⟨w, hwrite, -, -, -, hsame⟩ := h.fileWrite hf hc.1.2 hi hc.2
  refine ⟨i, by rw [Fs.inodeOf, hf]; exact hi, fun n hn hne => ?_⟩
  rw [Fs.exec, hwrite] at hcode
  cases hcode
  refine contents_of_unchanged hsame (h.volume.owned.onDevice n hn) fun k hk hhas => ?_
  exact h.volume.owned.apart n hn i.sector (h.volume.opened i (Objects.mem_of_get hi)).1 hne k hk
    (.inr hhas)

variable {N : Nat} {state : Nat → Fs} {label : Nat → Call}

/-- **No sector belongs to two files.**  In every run from a formatted file system: in every
state the sectors of the owners are different, on the device and marked; every call returns,
but for `filesys_create` of a negative size; and a write to a file changes neither the inode
nor a byte of any other owner, nor of any other open file. -/
theorem sectors_apart (hrun : Fs.system.Run N state label) :
    (∀ t, t ≤ N → SectorsApart (state t)) ∧
    (∀ t, t ≤ N → ∀ c, (state t).Allowed c →
      (∀ name size junk, c = .create name size junk → 0 ≤ size) → ((state t).exec c).isSome = true) ∧
    (∀ t, t < N → ∀ f buffer size, label t = .write f buffer size →
      ∃ i, (state t).inodeOf f = some i ∧ ∀ n,
        (n ∈ owners (state t) ∨ ∃ g j, (state t).inodeOf g = some j ∧ j.sector = n) →
        n ≠ i.sector →
        inodeAt (state (t + 1)).device n = inodeAt (state t).device n ∧
        contents (state (t + 1)).device n = contents (state t).device n) := by
  refine ⟨fun t ht => ?_, fun t ht c hc hsize => ?_, fun t ht f buffer size hlabel => ?_⟩
  · obtain ⟨nodes, h⟩ := ordered_run hrun ht
    exact h.sectorsApart
  · obtain ⟨nodes, h⟩ := ordered_run hrun ht
    obtain ⟨s', nodes', hcode, -⟩ := h.exec hc hsize
    rw [hcode]
    rfl
  · obtain ⟨nodes, h⟩ := ordered_run hrun (Nat.le_of_lt ht)
    obtain ⟨hc, hcode⟩ := hrun.step t ht
    rw [hlabel] at hc hcode
    obtain ⟨i, hi, hother⟩ := h.write_other hc hcode
    refine ⟨i, hi, fun n hn => hother n ?_⟩
    rcases hn with hn | ⟨g, j, hj, rfl⟩
    · exact h.owners_sub n hn
    · obtain ⟨file, -, hj⟩ := of_bind hj
      exact (h.volume.opened j (Objects.mem_of_get hj)).1

end Writes

/-- A device of eight sectors. -/
def eightSectors : Device where
  size := 8
  bytes := fun _ => 0

/-- The device, formatted. -/
def eightFormatted : Fs :=
  (Fs.filesysInit eightSectors (fun _ => 0) [] true).getD (Fs.boot eightSectors [])

theorem filesysInit_eightSectors :
    Fs.filesysInit eightSectors (fun _ => 0) [] true = some eightFormatted := by
  have hsome : (Fs.filesysInit eightSectors (fun _ => 0) [] true).isSome = true := by decide +kernel
  obtain ⟨s, hs⟩ := Option.isSome_iff_exists.mp hsome
  rw [eightFormatted, hs]
  rfl

/-- A file is removed while it is open and its name is used again, on a device that is full
then; the old file is written and closed, and its sectors are free. -/
theorem sectors_apart_reused :
    ∃ state label, Fs.system.Run 6 state label ∧ (∀ t, t ≤ 6 → SectorsApart (state t)) ∧
      owners (state 5) = [0, 1, 7, 4] ∧ (∀ k, k < 8 → (state 5).freeMap.bit k = true) ∧
      (state 6).freeMap.bit 4 = false := by
  let calls : List Call := [.create [97, 0] 600 fun _ => 0, .open [97, 0], .remove [97, 0],
    .create [97, 0] 0 fun _ => 0, .write 7 [1, 2] 2, .close 7]
  let state := after (orSelf Fs.exec) eightFormatted calls
  -- the code is run once for all that is to be seen
  obtain ⟨hreturns, hfile, hmap, hfile', hmap', hend⟩ :
      (∀ t, t < 6 → ((state t).exec (calls.getD t (.close 0))).isSome = true) ∧
      ((state 4).file 7).isSome = true ∧ (state 4).freeMapFile ≠ some 7 ∧
      ((state 5).file 7).isSome = true ∧ (state 5).freeMapFile ≠ some 7 ∧
      owners (state 5) = [0, 1, 7, 4] ∧ (∀ k, k < 8 → (state 5).freeMap.bit k = true) ∧
      (state 6).freeMap.bit 4 = false := by decide +kernel
  have hrun : Fs.system.Run 6 state fun t => calls.getD t (.close 0) :=
    Run.of_checked_labels ⟨_, _, _, filesysInit_eightSectors⟩ calls _ fun t ht => by
      refine ⟨?_, hreturns t ht⟩
      have ht : t < 6 := ht
      interval_cases t
      · exact ⟨by decide, by decide, by decide⟩
      · exact show 0 ∈ _ by decide
      · exact show 0 ∈ _ by decide
      · exact ⟨by decide, by decide, by decide⟩
      · exact ⟨⟨hfile, hmap⟩, by decide⟩
      · exact ⟨hfile', hmap'⟩
  exact ⟨state, _, hrun, (sectors_apart hrun).1, hend⟩

end Pintos.Filesys
