import Pintos.SectorOwnership

/-!
# Mounting again

The free map is in memory and, as a file that is itself allocated from it, on the device; the
file is written whenever sectors are taken or released.  As long as there is memory, these
writes succeed and names are found where they are, so that **after every call the copy on the
device is up to date and names are unique** (`Settled`).

**The file system survives a remount** (`remount`): when all files have been closed,
`filesys_done` and then `filesys_init` without formatting leave every byte of the device as it
is, make a free map that has the same bits, and what a caller finds under a name is what it
found before.
-/

namespace Pintos.Filesys
open Objects (mem_of_get key_of_get)

open CString TransitionSystem

namespace Fs

/-- What a caller finds under a name: the length of the file and its bytes. -/
def readFile (s : Fs) (name : CharPtr) : Option (Option (Int × List Byte)) := do
  let (s, f) ← s.filesysOpen name
  match f with
  | none => some none
  | some f =>
    let length ← s.fileLength f
    let (_, bytes) ← s.fileRead f length
    some (some (length, bytes))

/-- The system, where there is memory. -/
def memorySystem : TransitionSystem Fs Call :=
  .checked (fun s => ∃ device words, filesysInit device words [] true = some s) Allowed exec

end Fs

/-- The length and the bytes of the file that has a name. -/
def fileAt (d : Device) (str : List Byte) : Option (Int × List Byte) :=
  (sectorOf d 1 16 str).map fun n => ((inodeAt d n).length, contents d n)

/-! ## The copy on the device -/

/-- **The file system is settled**: it is in order, the free map is on the device, and names
are unique.  There is memory. -/
structure Settled (s : Fs) (nodes : Set Nat) : Prop where
  ordered : Ordered s nodes []
  answers : s.answers = []
  saved : Saved s.device s.freeMap
  names : NamesApart s.device 1 16

section Steps
variable {s s' : Fs} {nodes : Set Nat} {c : Call}

theorem Formatted.settled (h : Formatted s) (hanswers : s.answers = []) : Settled s {1, 0} := by
  refine ⟨h.ordered, hanswers, h.saved, fun j hj k _ str hnames _ => ?_⟩
  have hfree := entryInUse_of_zeros hj (by
    rw [show entrySize * 16 = 320 from rfl]
    exact h.zeros)
  exact absurd (hnames.1.symm.trans hfree) (by decide)

variable {nodes' : Set Nat}

theorem FileCreated.settled {str : List Byte} {size : Int} {ok : Bool}
    (hcreated : FileCreated s nodes str size ok s' nodes') (h : Settled s nodes)
    (h' : Ordered s' nodes' []) : Settled s' nodes' := by
  refine ⟨h', hcreated.answers h.answers, hcreated.saved h.answers h.saved, ?_⟩
  cases ok with
  | false => exact h.names.congr (hcreated.failed rfl).2
  | true =>
    obtain ⟨-, n, k, -, -, -, hnew, hother, hfresh, -⟩ := hcreated.done rfl
    exact h.names.add hnew hother (hfresh h.answers).2

theorem FileRemoved.settled {str : List Byte} {ok : Bool}
    (hremoved : FileRemoved s nodes str ok s' nodes') (h : Settled s nodes)
    (h' : Ordered s' nodes' []) : Settled s' nodes' := by
  refine ⟨h', hremoved.answers h.answers, hremoved.saved h.answers h.saved, ?_⟩
  cases ok with
  | false =>
    rw [(hremoved.failed rfl).1]
    exact h.names
  | true =>
    obtain ⟨k, -, -, hfree, hother, -⟩ := hremoved.done rfl
    exact h.names.remove hfree hother

/-- A write to a file of a caller reaches neither the free map nor the root directory. -/
theorem Settled.write {n : Nat} (h : Settled s nodes) (h' : Ordered s' nodes' [])
    (hanswers : s'.answers = []) (hmap : s'.freeMap = s.freeMap) (hn : n ∈ nodes) (h0 : n ≠ 0)
    (h1 : n ≠ 1) (hsame : Unchanged s.device s'.device fun k => ¬(inodeAt s.device n).Has k) :
    Settled s' nodes' := by
  have howned := h.ordered.volume.owned
  have harea : ∀ m ∈ nodes, m ≠ n → ∀ k, Area s.device m k → ¬(inodeAt s.device n).Has k :=
    fun m hm hne k hk hhas => howned.apart m hm n hn hne k hk (.inr hhas)
  refine ⟨h', hanswers, ?_, h.names.congr fun k hk => ?_⟩
  · rw [hmap]
    exact h.ordered.volume.saved h.ordered.mapFile hsame (harea 0 h.ordered.zero_mem (Ne.symm h0))
      h.saved
  · exact entryAt_of_unchanged hsame (howned.onDevice 1 h.ordered.directory.node)
      (harea 1 h.ordered.directory.node (Ne.symm h1)) h.ordered.directory.length hk

/-- **Every call returns**, and leaves the file system settled. -/
theorem Settled.exec (h : Settled s nodes) (hc : s.Allowed c)
    (hsize : ∀ name size junk, c = .create name size junk → 0 ≤ size) :
    ∃ s' nodes', s.exec c = some s' ∧ Settled s' nodes' := by
  have htail : s.answers.tail = [] := by rw [h.answers]; rfl
  cases c with
  | create name size junk =>
    obtain ⟨s', ok, nodes', hcode, h', hcreated⟩ :=
      h.ordered.filesysCreate hc.1 (hsize name size junk rfl) hc.2.2 junk
    exact ⟨s', nodes', by rw [Fs.exec, hcode]; rfl, hcreated.settled h h'⟩
  | «open» name =>
    obtain ⟨s', r, hcode, h', hopened⟩ := h.ordered.filesysOpen hc
    refine ⟨s', nodes, by rw [Fs.exec, hcode]; rfl, h', hopened.answers h.answers, ?_, ?_⟩
    · rw [hopened.device, hopened.freeMap]
      exact h.saved
    · rw [hopened.device]
      exact h.names
  | read f size =>
    obtain ⟨file, i, hf, hi⟩ := h.ordered.userFile hc
    obtain ⟨r, hcode, h', -⟩ := h.ordered.fileRead hf hi size
    exact ⟨_, nodes, by rw [Fs.exec, hcode]; rfl, h', htail, h.saved, h.names⟩
  | write f buffer size =>
    obtain ⟨file, i, hf, hi⟩ := h.ordered.userFile hc.1
    obtain ⟨h0, h1⟩ := h.ordered.sector_ne hf hc.1.2 hi
    obtain ⟨w, hcode, h', -, -, hsame⟩ := h.ordered.fileWrite hf hc.1.2 hi hc.2
    have hnode := (h.ordered.volume.opened i (mem_of_get hi)).1
    exact ⟨_, nodes, by rw [Fs.exec, hcode]; rfl, h.write h' htail rfl hnode h0 h1 hsame⟩
  | remove name =>
    obtain ⟨s', ok, nodes', hcode, h', hremoved⟩ := h.ordered.filesysRemove hc
    exact ⟨s', nodes', by rw [Fs.exec, hcode]; rfl, hremoved.settled h h'⟩
  | close f =>
    obtain ⟨file, i, hf, hi⟩ := h.ordered.userFile hc
    obtain ⟨s₁, nodes', hcode, h', hclosed⟩ := h.ordered.fileClose hf hc.2 hi
    refine ⟨_, nodes', hcode, h', hclosed.answers h.answers,
      hclosed.saved h.answers h.ordered.mapFile h.saved, h.names.congr fun k hk => ?_⟩
    exact h.ordered.directory.entry_of_mapArea h.ordered.volume hclosed.device hk

/-- **The file system stays settled.** -/
theorem settled_of_reachable (h : Fs.memorySystem.Reachable s) : ∃ nodes, Settled s nodes := by
  refine h.invariant (P := fun s => ∃ nodes, Settled s nodes) ?_ ?_
  · rintro s ⟨device, words, hinit⟩
    obtain ⟨hformatted, -, hanswers⟩ := formatted_of_init hinit
    exact ⟨_, hformatted.settled (hanswers rfl)⟩
  · rintro s c s' ⟨nodes, h⟩ ⟨hc, hcode⟩
    obtain ⟨c', hc', hsize, hcode'⟩ := Fs.exec_nonneg hc hcode
    obtain ⟨s'', nodes', hexec, h'⟩ := h.exec hc' hsize
    cases hexec.symm.trans hcode'
    exact ⟨nodes', h'⟩

end Steps

/-! ## What a caller finds -/

section Observe
variable {s : Fs} {nodes : Set Nat} {name : CharPtr}

/-- **What a caller finds under a name** is what is on the device. -/
theorem Settled.readFile (h : Settled s nodes) (hfew : s.files.length < maxFiles) (hname : 0 ∈ name) :
    s.readFile name = some (fileAt s.device (string name)) := by
  obtain ⟨s', r, hcode, h', hopened⟩ := h.ordered.filesysOpen hname
  simp only [Fs.readFile, hcode, some_bind]
  cases r with
  | none =>
    rw [fileAt, sectorOf_eq_none.mpr]
    · rfl
    · intro k hk hnames
      exact absurd (hopened.success h.answers hfew ⟨k, hk, hnames⟩) (by decide)
  | some f =>
    obtain ⟨b, k, i, hfiles, hk, hnames, hi, hsector⟩ := hopened.done f rfl
    have hf : s'.file f = some ⟨f, b, 0, false⟩ := by
      rw [Fs.file, hfiles]
      exact Objects.get_cons_self _ _
    obtain ⟨hnode, hdata⟩ := h'.volume.opened i (mem_of_get hi)
    obtain ⟨r, hread, -, -, hall⟩ := h'.fileRead hf hi i.data.length
    have hr : r = i.data.length.toNat := by
      rw [hall (hopened.answers h.answers), InodeDisk.available, Int.natCast_zero, Int.sub_zero,
        Int.min_self]
    have hlength : s'.fileLength f = some i.data.length := by
      simp only [Fs.fileLength, hf, some_bind, hi]
    simp only [hlength, hread, some_bind]
    rw [fileAt, sectorOf_of_names h.names hk hnames, hr, hdata, hsector, hopened.device]
    rfl

end Observe

/-! ## Remounting -/

section Remount
variable {s : Fs} {nodes : Set Nat}

/-- When callers have closed their files, only the file of the free map is open. -/
theorem Ordered.alone (h : Ordered s nodes []) (hclosed : ∀ f, ¬s.IsUserFile f) :
    ∃ f a pos data, s.freeMapFile = some f ∧ s.files = [⟨f, a, pos, false⟩] ∧
      s.inodes = [⟨a, 0, 1, false, 0, data⟩] := by
  have hcounted := h.volume.counted
  obtain ⟨f, hmap⟩ := Option.isSome_iff_exists.mp h.mapFile
  obtain ⟨-, -, file, i, hfile, hi, hsector⟩ := h.volume.map f hmap
  have hfaddr : file.addr = f := key_of_get hfile
  have hiaddr : i.addr = file.inode := key_of_get hi
  have hfiles : s.files = [file] := by
    refine hcounted.files.eq_singleton (mem_of_get hfile) fun g hg => ?_
    by_contra hne
    refine hclosed g.addr ⟨?_, fun heq => hne ?_⟩
    · obtain ⟨g', hg'⟩ := Objects.get_isSome hg
      exact Option.isSome_iff_exists.mpr ⟨g', hg'⟩
    · rw [hfaddr, ← Option.some.inj (heq.symm.trans hmap)]
  have husers : ∀ b, users s.files [] b = if file.inode = b then 1 else 0 := by
    intro b
    rw [users, hfiles]
    simp [List.countP_cons]
  have hinodes : s.inodes = [i] := by
    refine hcounted.addrs.eq_singleton (mem_of_get hi) fun j hj => ?_
    have hpos : 0 < users s.files [] j.addr := (hcounted.open_iff j.addr).mpr ⟨j, hj, rfl⟩
    rw [husers] at hpos
    by_contra hne
    rw [if_neg fun heq => hne (heq.symm.trans hiaddr.symm)] at hpos
    exact absurd hpos (by decide)
  have hopenCnt : i.openCnt = 1 := by
    have hcnt := hcounted.openCnt i (mem_of_get hi)
    rw [husers, if_pos hiaddr.symm] at hcnt
    exact hcnt
  have hremoved : i.removed = false := by
    by_contra hrem
    exact (h.directory.removed i (mem_of_get hi) (Bool.eq_true_of_not_eq_false hrem)).1
      hsector
  have hdeny := h.volume.denyWriteCnt (mem_of_get hi)
  have hallow := h.volume.allowed file (mem_of_get hfile)
  obtain ⟨_, a, pos, _⟩ := file
  obtain ⟨_, _, _, _, _, data⟩ := i
  subst hfaddr hiaddr hsector hopenCnt hremoved hdeny hallow
  exact ⟨_, _, pos, data, hmap, hfiles, hinodes⟩

/-- **A file system that is mounted again** has the free map it had. -/
theorem Settled.mounted (h : Settled s nodes) {b : Bitmap} (hcnt : b.bitCnt = s.device.size)
    (hsame : ∀ k, k < s.device.size → b.bit k = s.freeMap.bit k) (next : Nat) :
    Settled (mounted s.device b next []) nodes := by
  have howned := h.ordered.volume.owned
  have hcnt' : b.bitCnt = s.freeMap.bitCnt := hcnt.trans howned.bitCnt.symm
  obtain ⟨f, hf⟩ := Option.isSome_iff_exists.mp h.ordered.mapFile
  obtain ⟨h0, hlength, -⟩ := h.ordered.volume.map f hf
  have howned' : Owned s.device b nodes := howned.withFreeMap hcnt' fun n hn k hk =>
    (hsame k (howned.area_lt hn hk)).trans (howned.marked n hn k hk)
  have hdir := h.ordered.directory
  refine ⟨⟨mounted_volume howned' h0 hlength next [], ⟨hdir.node, hdir.ne_zero, hdir.length,
    hdir.entry, hdir.apart, ?_⟩, rfl, ?_⟩, rfl, h.saved.congr hcnt' fun k hk => ?_, h.names⟩
  · exact List.forall_mem_singleton.mpr Bool.noConfusion
  · exact List.forall_mem_singleton.mpr fun hne => absurd rfl hne
  · exact hsame k (howned.bitCnt ▸ hk)

/-- **The file system is unmounted and mounted again.** -/
theorem Settled.remount (h : Settled s nodes) (hclosed : ∀ f, ¬s.IsUserFile f)
    (words : Nat → BitVec 32) :
    ∃ s₁ b, s.filesysDone = some s₁ ∧ s₁.device = s.device ∧
      Fs.filesysInit s₁.device words [] false = some (Filesys.mounted s.device b 0 []) ∧
      b.bitCnt = s.device.size ∧ ∀ k, k < s.device.size → b.bit k = s.freeMap.bit k := by
  have howned := h.ordered.volume.owned
  obtain ⟨f, a, pos, data, hmap, hfiles, hinodes⟩ := h.ordered.alone hclosed
  obtain ⟨h0, hlength, -⟩ := h.ordered.volume.map f hmap
  obtain ⟨b, hinit, hcnt, hsame⟩ := mounted_of_init howned h0 hlength h.saved words
  exact ⟨_, b, freeMapClose_of_alone hinodes hfiles hmap, rfl, hinit, hcnt, hsame⟩

variable {N : Nat} {state : Nat → Fs} {label : Nat → Call}

/-- **The file system survives a remount.**  After every run with memory at whose end callers
have closed their files, `filesys_done` and then `filesys_init` without formatting return; not
a byte of the device is different, under every name a caller finds the length and the bytes it
found before, and the free map has the same bits.  `bitmap_read` from the file of the free map
gives back the bits of whatever bitmap `bitmap_write` wrote to it. -/
theorem survives_remount (hrun : Fs.memorySystem.Run N state label)
    (hclosed : ∀ f, ¬(state N).IsUserFile f) (words : Nat → BitVec 32) :
    (∃ s₁ s₂, (state N).filesysDone = some s₁ ∧
      Fs.filesysInit s₁.device words [] false = some s₂ ∧ s₂.device = (state N).device ∧
      (∀ name, 0 ∈ name →
        (state N).readFile name = some (fileAt (state N).device (string name)) ∧
        s₂.readFile name = (state N).readFile name) ∧
      s₂.freeMap.bitCnt = (state N).freeMap.bitCnt ∧
      ∀ k, k < (state N).freeMap.bitCnt → s₂.freeMap.bit k = (state N).freeMap.bit k) ∧
    ∀ f b b', (state N).freeMapFile = some f → b.bitCnt = (state N).freeMap.bitCnt →
      b'.bitCnt = b.bitCnt →
      ∃ s' s'', Fs.bitmapWrite { state N with freeMap := b } f = some (s', true) ∧
        Fs.bitmapRead { s' with freeMap := b' } f = some (s'', true) ∧
        s''.freeMap.bitCnt = b.bitCnt ∧ ∀ k, k < b.bitCnt → s''.freeMap.bit k = b.bit k := by
  obtain ⟨nodes, h⟩ := settled_of_reachable (hrun.reachable (Nat.le_refl N))
  have howned := h.ordered.volume.owned
  obtain ⟨s₁, b, hdone, hdevice, hinit, hcnt, hsame⟩ := h.remount hclosed words
  constructor
  · obtain ⟨f, a, pos, data, -, hfiles, -⟩ := h.ordered.alone hclosed
    have hone : 1 < maxFiles := by decide
    have hfew : (state N).files.length < maxFiles := by rwa [hfiles]
    refine ⟨s₁, _, hdone, hinit, rfl, fun name hname => ?_, ?_, fun k hk => ?_⟩
    · have hread := h.readFile hfew hname
      have hread' := (h.mounted hcnt hsame 0).readFile hone hname
      exact ⟨hread, hread'.trans hread.symm⟩
    · exact hcnt.trans howned.bitCnt.symm
    · exact hsame k (howned.bitCnt ▸ hk)
  · intro f b b' hf hb hb'
    have hbits : b.bitCnt = (state N).device.size := hb.trans howned.bitCnt
    obtain ⟨h0, hlength, file, i, hfile, hi, hsector⟩ := h.ordered.volume.map f hf
    have hmem := mem_of_get hi
    have hdata : i.data = inodeAt (state N).device 0 := hsector ▸ (h.ordered.volume.opened i hmem).2
    exact Fs.bitmapRead_bitmapWrite (s := { state N with freeMap := b }) hfile hi
      (h.ordered.volume.onDevice hmem) (h.ordered.volume.denyWriteCnt hmem)
      (by rw [hdata, hlength, hbits]) (by rw [hbits]; exact howned.size_lt)
      (by rw [hbits]; exact howned.lt 0 h0) h.answers hb'

theorem not_isUserFile {m : Nat} (hfiles : s.files.map File.addr = [m])
    (hmap : s.freeMapFile = some m) (f : Nat) : ¬s.IsUserFile f := by
  rintro ⟨hsome, hne⟩
  obtain ⟨file, hfile⟩ := Option.isSome_iff_exists.mp hsome
  have hmem := List.mem_map_of_mem (f := File.addr) (mem_of_get hfile)
  rw [hfiles, List.mem_singleton, key_of_get hfile] at hmem
  exact hne (hmem ▸ hmap)

end Remount

/-- A file is made and written, another one is made and removed. -/
theorem survives_remount_written :
    ∃ state label, Fs.memorySystem.Run 6 state label ∧
      ∃ s₁ s₂, (state 6).filesysDone = some s₁ ∧
        Fs.filesysInit s₁.device (fun _ => 0) [] false = some s₂ ∧
        s₂.readFile [97, 0] = some (some (3, [1, 2, 0])) ∧ s₂.readFile [98, 0] = some none := by
  let calls : List Call := [.create [97, 0] 3 fun _ => 0, .open [97, 0], .write 7 [1, 2] 2,
    .close 7, .create [98, 0] 0 fun _ => 0, .remove [98, 0]]
  let state := after (orSelf Fs.exec) eightFormatted calls
  -- the code is run once for all that is to be seen
  obtain ⟨hreturns, hfile, hmap, hfile', hmap', hfiles, hfreeMap, ha, hb⟩ :
      (∀ t, t < 6 → ((state t).exec (calls.getD t (.close 0))).isSome = true) ∧
      ((state 2).file 7).isSome = true ∧ (state 2).freeMapFile ≠ some 7 ∧
      ((state 3).file 7).isSome = true ∧ (state 3).freeMapFile ≠ some 7 ∧
      (state 6).files.map File.addr = [3] ∧ (state 6).freeMapFile = some 3 ∧
      fileAt (state 6).device [97] = some (3, [1, 2, 0]) ∧
      fileAt (state 6).device [98] = none := by decide +kernel
  have hrun : Fs.memorySystem.Run 6 state fun t => calls.getD t (.close 0) :=
    Run.of_checked_labels ⟨_, _, filesysInit_eightSectors⟩ calls _ fun t ht => by
      refine ⟨?_, hreturns t ht⟩
      have ht : t < 6 := ht
      interval_cases t
      · exact ⟨by decide, by decide, by decide⟩
      · exact show 0 ∈ _ by decide
      · exact ⟨⟨hfile, hmap⟩, by decide⟩
      · exact ⟨hfile', hmap'⟩
      · exact ⟨by decide, by decide, by decide⟩
      · exact show 0 ∈ _ by decide
  obtain ⟨⟨s₁, s₂, hdone, hinit, -, hnames, -⟩, -⟩ :=
    survives_remount hrun (not_isUserFile hfiles hfreeMap) fun _ => 0
  refine ⟨state, _, hrun, s₁, s₂, hdone, hinit, ?_, ?_⟩
  · obtain ⟨hread, hread'⟩ := hnames [97, 0] (by decide)
    rw [hread', hread]
    exact congrArg some ha
  · obtain ⟨hread, hread'⟩ := hnames [98, 0] (by decide)
    rw [hread', hread]
    exact congrArg some hb

end Pintos.Filesys
