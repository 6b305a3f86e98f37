import Mathlib.Tactic.IntervalCases
import Pintos.OpenFiles
import Pintos.TransitionSystem

/-!
# Handles on inodes

Callers open inodes, by `inode_open`, `inode_reopen`, `file_open` and `file_reopen`, deny
writes and allow them, remove inodes, and close what they have opened, each handle once.
**Through every such run the counts are exact** (`inode_counts_exact`), as long as no inode
has so many handles that their number is not an `int`: the inode, once opened, is the same
for everyone until the last handle is closed, and this close releases its sectors if it has
been removed.
-/

namespace Pintos.Filesys
open List
open Objects (mem_of_get key_of_get map_modify)

open TransitionSystem

/-! ## What the code does to the tables -/

namespace Fs
variable {s s' : Fs} {a f sector cnt : Nat} {held : List Nat} {i : Inode}

/-- Only the device and the answers of `malloc` differ. -/
structure OnlyDevice (s s' : Fs) : Prop where
  table : s'.toOpenTable = s.toOpenTable
  freeMap : s'.freeMap = s.freeMap
  freeMapFile : s'.freeMapFile = s.freeMapFile

theorem inodeWriteAt_onlyDevice {buffer : List Byte} {size : Int} {offset n : Nat}
    (h : s.inodeWriteAt a buffer size offset = some (s', n)) : OnlyDevice s s' := by
  obtain ⟨i, -, h⟩ := of_bind h
  split at h
  · cases h
    exact ⟨rfl, rfl, rfl⟩
  · rw [writeAllowed, malloc_eq] at h
    obtain ⟨⟨device, written⟩, -, h⟩ := of_bind h
    cases h
    exact ⟨rfl, rfl, rfl⟩

theorem bitmapWrite_onlyDevice {ok : Bool} (h : s.bitmapWrite f = some (s', ok)) :
    OnlyDevice s s' := by
  obtain ⟨⟨s'', written⟩, hwrite, h⟩ := of_bind h
  cases h
  obtain ⟨file, -, hwrite⟩ := of_bind hwrite
  exact inodeWriteAt_onlyDevice hwrite

/-- **What `free_map_release` does** where its assertion holds. -/
structure ReleasedRange (s : Fs) (sector cnt : Nat) (s' : Fs) : Prop where
  table : s'.toOpenTable = s.toOpenTable
  freeMapFile : s'.freeMapFile = s.freeMapFile
  allocated : ∀ k, k < cnt → s.freeMap.bit (sector + k) = true
  freeMap : s.freeMap.SetRange sector cnt false s'.freeMap

theorem freeMapRelease_eq_some (h : s.freeMapRelease sector cnt = some s') :
    ReleasedRange s sector cnt s' := by
  obtain ⟨all, hall, h⟩ := of_bind h
  obtain ⟨_, hassert, h⟩ := of_bind h
  obtain ⟨freeMap, hset, h⟩ := of_bind h
  obtain ⟨f, -, h⟩ := of_bind h
  obtain ⟨⟨s'', ok⟩, hwrite, h⟩ := of_bind h
  cases h
  have htrue : all = true := of_assert hassert
  obtain ⟨hrange, hbits⟩ := Bitmap.all_eq_true (htrue ▸ hall)
  obtain ⟨b, hcode, hb⟩ := Bitmap.setMultiple_spec hrange false
  cases hcode.symm.trans hset
  have honly := bitmapWrite_onlyDevice hwrite
  exact ⟨honly.table, honly.freeMapFile, hbits, by rw [honly.freeMap]; exact hb⟩

end Fs

/-- The sectors of an inode: its own, and those of its data. -/
def Inode.Owns (i : Inode) (k : Nat) : Prop :=
  k = i.sector ∨ i.data.start ≤ k ∧ k < i.data.start + bytesToSectors i.data.length

instance (i : Inode) (k : Nat) : Decidable (i.Owns k) :=
  inferInstanceAs (Decidable (_ ∨ _))

/-- **The sectors of an inode are released**: they were allocated, and are free now; nothing
else changes. -/
structure Released (b : Bitmap) (i : Inode) (b' : Bitmap) : Prop where
  allocated : ∀ k, i.Owns k → b.bit k = true
  bit_eq : ∀ k, b'.bit k = if i.Owns k then false else b.bit k

namespace Fs
variable {s s' : Fs} {a f : Nat} {held : List Nat} {i : Inode} {files : List File}

/-- What becomes of the free map when the last handle of an inode is closed. -/
theorem freeInode_eq_some (h : s.freeInode i = some s') :
    s'.toOpenTable =
      { s.toOpenTable with inodes := Objects.release Inode.addr s.inodes i.addr } ∧
      (i.removed = true → Released s.freeMap i s'.freeMap) ∧
      (i.removed = false → s'.freeMap = s.freeMap) := by
  rw [freeInode] at h
  cases hremoved : i.removed with
  | false =>
    rw [hremoved] at h
    cases h
    exact ⟨rfl, (nomatch ·), fun _ => rfl⟩
  | true =>
    rw [hremoved] at h
    obtain ⟨s₁, h₁, h₂⟩ := of_bind h
    have hfirst := freeMapRelease_eq_some h₁
    have hsecond := freeMapRelease_eq_some h₂
    have hbit := hfirst.freeMap.bit_eq
    refine ⟨hsecond.table.trans hfirst.table, fun _ => ⟨?_, fun k => ?_⟩, (nomatch ·)⟩
    · rintro k (rfl | ⟨hle, hlt⟩)
      · exact hfirst.allocated 0 Nat.one_pos
      · obtain ⟨j, rfl⟩ := Nat.exists_eq_add_of_le hle
        have hset := hsecond.allocated j (by omega)
        rw [hbit] at hset
        split at hset
        · exact absurd hset (by decide)
        · exact hset
    · rw [hsecond.freeMap.bit_eq, hbit]
      by_cases hk : i.Owns k
      · rw [if_pos hk]
        rcases hk with rfl | hk
        · simp
        · rw [if_pos hk]
      · obtain ⟨hne, hdata⟩ := not_or.mp hk
        rw [if_neg hk, if_neg hdata, if_neg (by omega)]

/-- Whose last handle is closed: what this does to the free map.  `left` are the numbers of
handles afterwards. -/
structure Frees (inodes : List Inode) (left : Nat → Nat) (b b' : Bitmap) : Prop where
  released : ∀ i ∈ inodes, left i.addr = 0 → i.removed = true → Released b i b'
  same : (∀ i ∈ inodes, left i.addr = 0 → i.removed = false) → b' = b

theorem Frees.of_same {inodes : List Inode} {left : Nat → Nat} {b : Bitmap}
    (h : ∀ i ∈ inodes, left i.addr ≠ 0) : Frees inodes left b b :=
  ⟨fun i hi h0 => absurd h0 (h i hi), fun _ => rfl⟩

/-- What the release depends on. -/
def core (i : Inode) : Nat × Nat × Bool × InodeDisk :=
  (i.addr, i.sector, i.removed, i.data)

theorem Released.congr {b b' : Bitmap} {i j : Inode} (h : Released b i b') (hcore : core i = core j) :
    Released b j b' := by
  simp only [core, Prod.mk.injEq] at hcore
  have howns : ∀ k, i.Owns k ↔ j.Owns k := fun k => by
    rw [Inode.Owns, Inode.Owns, hcore.2.1, hcore.2.2.2]
  refine ⟨fun k hk => h.allocated k ((howns k).mpr hk), fun k => ?_⟩
  rw [h.bit_eq]
  exact if_congr (howns k) rfl rfl

theorem Frees.congr {inodes inodes' : List Inode} {left : Nat → Nat} {b b' : Bitmap}
    (h : Frees inodes left b b') (hcore : inodes.map core = inodes'.map core) :
    Frees inodes' left b b' := by
  have hmem : ∀ {l l' : List Inode}, l.map core = l'.map core → ∀ j ∈ l', ∃ i ∈ l, core i = core j := by
    intro l l' hl j hj
    exact mem_map.mp (hl ▸ mem_map_of_mem hj)
  constructor
  · intro j hj hleft hremoved
    obtain ⟨i, hi, hij⟩ := hmem hcore j hj
    have hij' := hij
    simp only [core, Prod.mk.injEq] at hij'
    exact Released.congr (h.released i hi (hij'.1 ▸ hleft) (hij'.2.2.1 ▸ hremoved)) hij
  · intro hnone
    refine h.same fun i hi hleft => ?_
    obtain ⟨j, hj, hji⟩ := hmem hcore.symm i hi
    simp only [core, Prod.mk.injEq] at hji
    exact hji.2.2.1 ▸ hnone j hj (hji.1 ▸ hleft)

/-- **Closing a handle.**  The files may be fewer than those of the state: `file_close` frees
the file only afterwards. -/
theorem inodeClose_eq_some (hclose : s.inodeClose a = some s')
    (h : Counted ⟨s.inodes, files, s.next⟩ held) (ha : a ∈ held)
    (hfew : users files held a < unsignedSize) :
    Counted ⟨s'.inodes, files, s'.next⟩ (held.erase a) ∧ s'.files = s.files ∧
      Frees s.inodes (users files (held.erase a)) s.freeMap s'.freeMap := by
  obtain ⟨i, hi, hclose⟩ := of_bind hclose
  have hmem := mem_of_get hi
  have hia : i.addr = a := key_of_get hi
  have herase := Counted.users_erase_self ha files
  have hother : ∀ j ∈ s.inodes, j.addr ≠ a → users files (held.erase a) j.addr ≠ 0 := by
    intro j hj hja
    rw [Counted.users_erase_ne hja]
    exact Nat.ne_of_gt ((h.open_iff _).mpr ⟨j, hj, rfl⟩)
  have hcnt : wrap (i.openCnt - 1) = wrap ((users files (held.erase a) a : Nat) : Int) := by
    rw [Int.sub_eq_add_neg, h.openCnt i hmem, hia, wrap_wrap_add, ← herase]
    congr 1
    omega
  have hzero := wrap_eq_zero_iff (n := users files (held.erase a) a) (by omega)
  rw [hcnt] at hclose
  by_cases hlast : users files (held.erase a) a = 0
  · rw [if_pos (hzero.mpr hlast)] at hclose
    obtain ⟨htable, hremoved, hkept⟩ := freeInode_eq_some hclose
    have hcounted := h.closeLast ha (by rw [← herase, hlast])
    refine ⟨?_, by rw [htable], fun j hj hleft hrem => ?_, fun hnone => ?_⟩
    · rw [htable, hia]
      exact hcounted
    · have hja : j.addr = a := by
        by_contra hne
        exact hother j hj hne hleft
      obtain rfl := h.addrs.eq_of_key hj hmem (hja.trans hia.symm)
      exact hremoved hrem
    · exact hkept (hnone i hmem (hia ▸ hlast))
  · rw [if_neg (mt hzero.mp hlast)] at hclose
    cases hclose
    have hmore : 1 < users files held a := by omega
    have hcounted := h.close hi ha hmore
    rw [hcnt] at hcounted
    refine ⟨hcounted, rfl, Frees.of_same fun j hj => ?_⟩
    by_cases hja : j.addr = a
    · rw [hja]
      exact hlast
    · exact hother j hj hja

/-- The inodes that are open were open before, or are new. -/
def Older (s s' : Fs) : Prop :=
  s.next ≤ s'.next ∧ ∀ i ∈ s'.inodes, (∃ j ∈ s.inodes, j.addr = i.addr) ∨ s.next ≤ i.addr

theorem Older.of_map (hinodes : s'.inodes.map Inode.addr = s.inodes.map Inode.addr)
    (hnext : s.next ≤ s'.next) : Older s s' := by
  refine ⟨hnext, fun i hi => .inl ?_⟩
  exact mem_map.mp (hinodes ▸ mem_map_of_mem hi)

theorem map_addr_of_core {inodes inodes' : List Inode} (h : inodes.map core = inodes'.map core) :
    inodes.map Inode.addr = inodes'.map Inode.addr := by
  simpa [core, Function.comp_def] using congrArg (List.map Prod.fst) h

theorem Older.of_core {s₁ : Fs} (h : Older s₁ s') (hcore : s₁.inodes.map core = s.inodes.map core)
    (hnext : s₁.next = s.next) : Older s s' := by
  refine ⟨hnext ▸ h.1, fun i hi => ?_⟩
  rcases h.2 i hi with ⟨j, hj, hji⟩ | hle
  · obtain ⟨k, hk, hkj⟩ := mem_map.mp (map_addr_of_core hcore ▸ mem_map_of_mem hj)
    exact .inl ⟨k, hk, hkj.trans hji⟩
  · exact .inr (hnext ▸ hle)

theorem inodeReopen_eq_some (hopen : s.inodeReopen a = some s')
    (h : Counted s.toOpenTable held) :
    Counted s'.toOpenTable (a :: held) ∧ s'.inodes.map core = s.inodes.map core ∧
      s'.files = s.files ∧ s'.next = s.next ∧ s'.freeMap = s.freeMap := by
  obtain ⟨i, hi, hopen⟩ := of_bind hopen
  cases hopen
  exact ⟨h.reopen hi, map_modify fun _ => rfl, rfl, rfl, rfl⟩

/-- **`inode_open`** gives the one inode that is open for the sector. -/
theorem inodeOpen_eq_some {sector : Nat} {r : Option Nat}
    (hopen : s.inodeOpen sector = some (s', r)) (h : Counted s.toOpenTable held) :
    Counted s'.toOpenTable (r.toList ++ held) ∧ Older s s' ∧ s'.files = s.files ∧
      s'.freeMap = s.freeMap ∧
      ∀ a, r = some a → ∃ i ∈ s'.inodes, i.addr = a ∧ i.sector = sector := by
  rw [inodeOpen] at hopen
  cases hfind : s.inodes.find? fun i => i.sector = sector with
  | some i =>
    rw [hfind] at hopen
    obtain ⟨s₁, hreopen, hopen⟩ := of_bind hopen
    cases hopen
    have hmem := mem_of_find?_eq_some hfind
    have hsector : i.sector = sector := by simpa using find?_some hfind
    obtain ⟨hcounted, hcore, hfiles, hnext, hmap⟩ := inodeReopen_eq_some hreopen h
    refine ⟨hcounted, Older.of_map (map_addr_of_core hcore) (Nat.le_of_eq hnext.symm), hfiles,
      hmap, ?_⟩
    rintro _ ⟨⟩
    obtain ⟨j, hj, hji⟩ := mem_map.mp (hcore ▸ mem_map_of_mem hmem)
    simp only [core, Prod.mk.injEq] at hji
    exact ⟨j, hj, hji.1, hji.2.1.trans hsector⟩
  | none =>
    rw [hfind] at hopen
    have hfree : ∀ i ∈ s.inodes, i.sector ≠ sector := fun i hi => by
      simpa using find?_eq_none.mp hfind i hi
    simp only [malloc_eq] at hopen
    split at hopen
    · obtain ⟨bytes, -, hopen⟩ := of_bind hopen
      cases hopen
      refine ⟨h.push hfree _, ⟨Nat.le_succ _, fun i hi => ?_⟩, rfl, rfl, ?_⟩
      · rcases mem_cons.mp hi with rfl | hi
        · exact .inr (Nat.le_refl _)
        · exact .inl ⟨i, hi, rfl⟩
      · rintro _ ⟨⟩
        exact ⟨_, mem_cons_self, rfl, rfl⟩
    · cases hopen
      exact ⟨h, Older.of_map rfl (Nat.le_refl _), rfl, rfl, fun a ha => nomatch ha⟩

theorem older_of_inodeClose (hclose : s.inodeClose a = some s') : Older s s' := by
  obtain ⟨i, -, hclose⟩ := of_bind hclose
  dsimp only at hclose
  split at hclose
  · obtain ⟨htable, -⟩ := freeInode_eq_some hclose
    refine ⟨by rw [htable], fun j hj => .inl ⟨j, ?_, rfl⟩⟩
    rw [htable] at hj
    exact (Objects.mem_release.mp hj).1
  · cases hclose
    exact Older.of_map (map_modify fun _ => rfl) (Nat.le_refl _)

/-- **`file_open`** makes the handle a file, or closes it. -/
theorem fileOpen_eq_some {r : Option Nat} (hopen : s.fileOpen (some a) = some (s', r))
    (h : Counted s.toOpenTable held) (ha : a ∈ held)
    (hfew : users s.files held a < unsignedSize) :
    Counted s'.toOpenTable (held.erase a) ∧ Older s s' ∧
      Frees s.inodes (users s'.files (held.erase a)) s.freeMap s'.freeMap := by
  simp only [fileOpen, malloc_eq] at hopen
  split at hopen
  · cases hopen
    have hcounted := h.openFile ha
    refine ⟨hcounted, Older.of_map rfl (Nat.le_succ _), Frees.of_same fun j hj => ?_⟩
    exact Nat.ne_of_gt ((hcounted.open_iff _).mpr ⟨j, hj, rfl⟩)
  · obtain ⟨s₁, hclose, hopen⟩ := of_bind hopen
    cases hopen
    obtain ⟨hcounted, hfiles, hfrees⟩ := inodeClose_eq_some hclose h ha hfew
    rw [← hfiles] at hcounted hfrees
    exact ⟨hcounted, (older_of_inodeClose hclose :), hfrees⟩

section
variable {file : File} (h : Counted s.toOpenTable held) (hf : s.file f = some file)
  (hfew : users s.files held file.inode < 2147483648)
include h hf hfew

/-- Where the counts and flags are right, the assertion of `inode_deny_write` holds. -/
theorem fileDenyWrite_eq :
    ∃ s', s.fileDenyWrite f = some s' ∧ Counted s'.toOpenTable held ∧
      s'.inodes.map core = s.inodes.map core ∧ s'.next = s.next ∧ s'.freeMap = s.freeMap := by
  simp only [fileDenyWrite, hf, some_bind]
  cases hdeny : file.denyWrite with
  | true => exact ⟨s, rfl, h, rfl, rfl, rfl⟩
  | false =>
    obtain ⟨i, hi⟩ := h.get_of_file (mem_of_get hf)
    have hmem := mem_of_get hi
    have hia : i.addr = file.inode := key_of_get hi
    have hcounted := h.setDenyWrite hf hi (v := true) hdeny
      (c := fun _ => wrap (i.denyWriteCnt + 1)) rfl
    have hassert : wrap (i.denyWriteCnt + 1) ≤ i.openCnt := by
      let files := Objects.modify File.addr s.files f fun file => { file with denyWrite := true }
      have hle := deniers_le_users files held file.inode
      have hsame : users files held file.inode = users s.files held file.inode :=
        congrArg (· + held.count file.inode) (Objects.countP_modify_of_keep fun _ => rfl)
      have hnew : wrap (i.denyWriteCnt + 1) = wrap (deniers files i.addr : Nat) :=
        hcounted.denyWriteCnt _ ((Objects.mem_modify h.addrs hi).mpr (.inl rfl))
      rw [hnew, h.openCnt i hmem, hia, wrap_of_lt (by omega), wrap_of_lt hfew]
      omega
    refine ⟨(s.setFile f fun file => { file with denyWrite := true }).setInode file.inode fun j =>
      { j with denyWriteCnt := wrap (i.denyWriteCnt + 1) }, ?_, hcounted,
      map_modify fun _ => rfl, rfl, rfl⟩
    have hinode : (s.setFile f fun file => { file with denyWrite := true }).inode file.inode
        = some i := hi
    simp only [Bool.false_eq_true, if_false, inodeDenyWrite, hinode, assert_of hassert, some_bind]

/-- Where the counts and flags are right, the assertions of `inode_allow_write` hold. -/
theorem fileAllowWrite_eq :
    ∃ s' file', s.fileAllowWrite f = some s' ∧ Counted s'.toOpenTable held ∧
      s'.file f = some file' ∧ file'.inode = file.inode ∧ file'.denyWrite = false ∧
      s'.inodes.map core = s.inodes.map core ∧ s'.next = s.next ∧ s'.freeMap = s.freeMap ∧
      ∀ held b, users s'.files held b = users s.files held b := by
  simp only [fileAllowWrite, hf, some_bind]
  cases hdeny : file.denyWrite with
  | false =>
    exact ⟨s, file, rfl, h, hf, rfl, hdeny, rfl, rfl, rfl, fun _ _ => rfl⟩
  | true =>
    obtain ⟨i, hi⟩ := h.get_of_file (mem_of_get hf)
    have hmem := mem_of_get hi
    have hia : i.addr = file.inode := key_of_get hi
    have hcounted := h.setDenyWrite hf hi (v := false) hdeny
      (c := fun j => wrap (j.denyWriteCnt - 1)) rfl
    have hle := deniers_le_users s.files held file.inode
    have hpos : 0 < deniers s.files file.inode :=
      countP_pos_iff.mpr ⟨file, mem_of_get hf, by simp [hdeny]⟩
    have hcnt : i.denyWriteCnt = (deniers s.files file.inode : Nat) := by
      rw [h.denyWriteCnt i hmem, hia, wrap_of_lt (by omega)]
    have hopenCnt : i.openCnt = (users s.files held file.inode : Nat) := by
      rw [h.openCnt i hmem, hia, wrap_of_lt hfew]
    have hfile := Objects.get_modify_self (f := fun file => { file with denyWrite := false })
      (fun _ => rfl) hf
    refine ⟨(s.setFile f fun file => { file with denyWrite := false }).setInode file.inode fun j =>
      { j with denyWriteCnt := wrap (j.denyWriteCnt - 1) }, _, ?_, hcounted, hfile, rfl, rfl,
      map_modify fun _ => rfl, rfl, rfl, fun held b =>
        congrArg (· + held.count b) (Objects.countP_modify_of_keep fun _ => rfl)⟩
    have hinode : (s.setFile f fun file => { file with denyWrite := false }).inode file.inode
        = some i := hi
    have hassert : 0 < i.denyWriteCnt := by omega
    have hassert' : i.denyWriteCnt ≤ i.openCnt := by omega
    simp only [if_true, inodeAllowWrite, hinode, assert_of hassert, assert_of hassert', some_bind]

end

end Fs

/-! ## Runs -/

/-- The file system, and the inodes that callers hold on to, one entry for each handle. -/
structure Handles where
  fs : Fs
  held : List Nat

/-- The calls.  An inode or a file is given by its address. -/
inductive HandleOp where
  | open (sector : Nat)
  | reopen (a : Nat)
  | remove (a : Nat)
  | close (a : Nat)
  | fileOpen (a : Nat)
  | fileReopen (f : Nat)
  | denyWrite (f : Nat)
  | allowWrite (f : Nat)
  | fileClose (f : Nat)

namespace Handles

/-- The number of unclosed handles on an inode. -/
def users (h : Handles) (a : Nat) : Nat :=
  Filesys.users h.fs.files h.held a

/-- The code of a call, and what becomes of the caller's handles: `file_open` takes
the one it is given. -/
def exec (h : Handles) : HandleOp → Option Handles
  | .open sector => do
    let (fs, a) ← h.fs.inodeOpen sector
    some ⟨fs, a.toList ++ h.held⟩
  | .reopen a => do some ⟨← h.fs.inodeReopen a, a :: h.held⟩
  | .remove a => do some ⟨← h.fs.inodeRemove a, h.held⟩
  | .close a => do some ⟨← h.fs.inodeClose a, h.held.erase a⟩
  | .fileOpen a => do
    let (fs, _) ← h.fs.fileOpen (some a)
    some ⟨fs, h.held.erase a⟩
  | .fileReopen f => do
    let (fs, _) ← h.fs.fileReopen f
    some ⟨fs, h.held⟩
  | .denyWrite f => do some ⟨← h.fs.fileDenyWrite f, h.held⟩
  | .allowWrite f => do some ⟨← h.fs.fileAllowWrite f, h.held⟩
  | .fileClose f => do some ⟨← h.fs.fileClose f, h.held⟩

/-- A handle is used as long as it is not closed, and closed by whom it belongs to; the free
map keeps its file. -/
def Allowed (h : Handles) : HandleOp → Prop
  | .open _ => True
  | .reopen a | .remove a => 0 < h.users a
  | .close a | .fileOpen a => a ∈ h.held
  | .fileReopen f | .denyWrite f | .allowWrite f => (h.fs.file f).isSome
  | .fileClose f => (h.fs.file f).isSome ∧ h.fs.freeMapFile ≠ some f

/-- Nothing is open but the file of the free map. -/
def Start (h : Handles) : Prop :=
  h.held = [] ∧ ∃ f a data, h.fs.inodes = [⟨a, 0, 1, false, 0, data⟩] ∧
    h.fs.files = [⟨f, a, 0, false⟩] ∧ h.fs.freeMapFile = some f ∧ a < h.fs.next ∧ f < h.fs.next

/-- The system. -/
def system : TransitionSystem Handles HandleOp :=
  .checked Start Allowed exec

/-- The counts are as they are said to be. -/
abbrev Ok (h : Handles) : Prop :=
  Counted h.fs.toOpenTable h.held

/-- What a call does besides. -/
structure Step (h h' : Handles) : Prop where
  older : Fs.Older h.fs h'.fs
  frees : Fs.Frees h.fs.inodes h'.users h.fs.freeMap h'.fs.freeMap

variable {h h' : Handles} {N : Nat} {state : Nat → Handles} {label : Nat → HandleOp}

theorem Start.ok (h0 : h.Start) : h.Ok := by
  obtain ⟨hheld, f, a, data, hinodes, hfiles, -, ha, hf⟩ := h0
  have husers : ∀ b, Filesys.users h.fs.files h.held b = if a = b then 1 else 0 := by
    intro b
    rw [hfiles, hheld, Filesys.users, countP_singleton, count_nil]
    simp
  refine ⟨?_, ?_, ?_, ?_, ?_, fun b => ?_, ?_, ?_⟩
  iterate 2
    rw [hinodes]
    exact pairwise_singleton _ _
  · rw [hfiles]
    exact pairwise_singleton _ _
  · rw [hinodes]
    exact forall_mem_singleton.mpr ha
  · rw [hfiles]
    exact forall_mem_singleton.mpr hf
  · rw [husers, hinodes]
    by_cases hb : a = b <;> simp [hb]
  · rw [hinodes]
    refine forall_mem_singleton.mpr ?_
    rw [husers, if_pos rfl]
    rfl
  · rw [hinodes, hfiles]
    refine forall_mem_singleton.mpr ?_
    rw [deniers, countP_singleton, if_neg (by simp)]
    rfl

/-- Where nothing is closed, nothing is freed. -/
theorem step_of_same (hok' : h'.Ok) (hcore : h'.fs.inodes.map Fs.core = h.fs.inodes.map Fs.core)
    (hnext : h'.fs.next = h.fs.next) (hmap : h'.fs.freeMap = h.fs.freeMap) : Step h h' := by
  have haddrs := Fs.map_addr_of_core hcore
  refine ⟨Fs.Older.of_map haddrs (Nat.le_of_eq hnext.symm), ?_⟩
  rw [hmap]
  refine Fs.Frees.of_same fun i hi => Nat.ne_of_gt ((hok'.open_iff _).mpr ?_)
  exact mem_map.mp (haddrs ▸ mem_map_of_mem hi)

/-- **One call keeps the counts exact.** -/
theorem exec_spec {op : HandleOp} (hok : h.Ok) (hallowed : h.Allowed op)
    (hexec : h.exec op = some h') (hfew : ∀ a, h.users a < 2147483648) : h'.Ok ∧ Step h h' := by
  have hlt : ∀ a, h.users a + 1 < unsignedSize := fun a => by
    have := hfew a
    unfold unsignedSize
    omega
  cases op with
  | «open» sector =>
    obtain ⟨⟨fs, r⟩, hcode, ⟨⟩⟩ := of_bind hexec
    obtain ⟨hok', holder, hfiles, hmap, -⟩ := Fs.inodeOpen_eq_some hcode hok
    refine ⟨hok', holder, ?_⟩
    rw [hmap]
    refine Fs.Frees.of_same fun i hi => ?_
    have hpos : 0 < h.users i.addr := (hok.open_iff _).mpr ⟨i, hi, rfl⟩
    have hle : h.users i.addr ≤ Filesys.users fs.files (r.toList ++ h.held) i.addr := by
      rw [hfiles, users, Filesys.users, Filesys.users, count_append]
      omega
    exact Nat.ne_of_gt (Nat.lt_of_lt_of_le hpos hle)
  | reopen a =>
    obtain ⟨fs, hcode, ⟨⟩⟩ := of_bind hexec
    obtain ⟨hok', hcore, -, hnext, hmap⟩ := Fs.inodeReopen_eq_some hcode hok
    exact ⟨hok', step_of_same hok' hcore hnext hmap⟩
  | remove a =>
    obtain ⟨fs, hcode, ⟨⟩⟩ := of_bind hexec
    obtain ⟨i, hi, hcode⟩ := of_bind hcode
    cases hcode
    have hok' := hok.remove hi
    refine ⟨hok', Fs.Older.of_map (map_modify fun _ => rfl) (Nat.le_refl _),
      Fs.Frees.of_same fun j hj => ?_⟩
    exact Nat.ne_of_gt ((hok.open_iff _).mpr ⟨j, hj, rfl⟩)
  | close a =>
    obtain ⟨fs, hcode, ⟨⟩⟩ := of_bind hexec
    obtain ⟨hok', hfiles, hfrees⟩ := Fs.inodeClose_eq_some hcode hok hallowed
      (Nat.lt_of_succ_lt (hlt a))
    rw [← hfiles] at hok' hfrees
    exact ⟨hok', Fs.older_of_inodeClose hcode, hfrees⟩
  | fileOpen a =>
    obtain ⟨⟨fs, r⟩, hcode, ⟨⟩⟩ := of_bind hexec
    obtain ⟨hok', holder, hfrees⟩ := Fs.fileOpen_eq_some hcode hok hallowed
      (Nat.lt_of_succ_lt (hlt a))
    exact ⟨hok', holder, hfrees⟩
  | fileReopen f =>
    obtain ⟨⟨fs, r⟩, hcode, ⟨⟩⟩ := of_bind hexec
    obtain ⟨file, -, hcode⟩ := of_bind hcode
    obtain ⟨s₁, hreopen, hcode⟩ := of_bind hcode
    obtain ⟨hok₁, hcore, hfiles, hnext, hmap⟩ := Fs.inodeReopen_eq_some hreopen hok
    have hfew₁ : Filesys.users s₁.files (file.inode :: h.held) file.inode < unsignedSize := by
      rw [hfiles, Counted.users_cons_self]
      exact hlt file.inode
    obtain ⟨hok', holder, hfrees⟩ := Fs.fileOpen_eq_some hcode hok₁ mem_cons_self hfew₁
    rw [erase_cons_head] at hok' hfrees
    rw [hmap] at hfrees
    exact ⟨hok', holder.of_core hcore hnext, hfrees.congr hcore⟩
  | denyWrite f =>
    obtain ⟨fs, hcode, ⟨⟩⟩ := of_bind hexec
    obtain ⟨file, hfile⟩ := Option.isSome_iff_exists.mp hallowed
    obtain ⟨s', hcode', hok', hcore, hnext, hmap⟩ := Fs.fileDenyWrite_eq hok hfile (hfew _)
    cases hcode'.symm.trans hcode
    exact ⟨hok', step_of_same hok' hcore hnext hmap⟩
  | allowWrite f =>
    obtain ⟨fs, hcode, ⟨⟩⟩ := of_bind hexec
    obtain ⟨file, hfile⟩ := Option.isSome_iff_exists.mp hallowed
    obtain ⟨s', file', hcode', hok', -, -, -, hcore, hnext, hmap, -⟩ :=
      Fs.fileAllowWrite_eq hok hfile (hfew _)
    cases hcode'.symm.trans hcode
    exact ⟨hok', step_of_same hok' hcore hnext hmap⟩
  | fileClose f =>
    obtain ⟨fs, hcode, ⟨⟩⟩ := of_bind hexec
    obtain ⟨s₁, hallow, hcode⟩ := of_bind hcode
    obtain ⟨file, hfile⟩ := Option.isSome_iff_exists.mp hallowed.1
    obtain ⟨s', file', hallow', hok₁, hfile', hinode, hdeny, hcore, hnext, hmap, husers⟩ :=
      Fs.fileAllowWrite_eq hok hfile (hfew _)
    obtain rfl := Option.some.inj (hallow'.symm.trans hallow)
    obtain ⟨file'', hfile'', hcode⟩ := of_bind hcode
    cases hfile'.symm.trans hfile''
    obtain ⟨s₂, hclose, hcode⟩ := of_bind hcode
    cases hcode
    -- the file's handle is given back to the list, and taken from there
    have hok₂ := hok₁.closeFile hfile' hdeny
    have hsame : ∀ b, Filesys.users (Objects.release File.addr s'.files f)
        (file'.inode :: h.held) b = h.users b := fun b =>
      (Counted.users_closeFile hok₁.files hfile' h.held b).trans (husers h.held b)
    obtain ⟨hok', hfiles, hfrees⟩ := Fs.inodeClose_eq_some hclose hok₂
      mem_cons_self (by rw [hsame]; exact Nat.lt_of_succ_lt (hlt _))
    rw [erase_cons_head, ← hfiles] at hok' hfrees
    rw [hmap] at hfrees
    have holder := Fs.older_of_inodeClose hclose
    exact ⟨hok', holder.of_core hcore hnext, hfrees.congr hcore⟩

theorem ok_run (hrun : system.Run N state label)
    (hfew : ∀ t, t ≤ N → ∀ a, (state t).users a < 2147483648) : ∀ {t : Nat}, t ≤ N → (state t).Ok
  | 0, _ => Start.ok hrun.init
  | t + 1, ht =>
    have hstep := hrun.step t (by omega)
    (exec_spec (ok_run hrun hfew (by omega)) hstep.1 hstep.2 (hfew t (by omega))).1

section
variable (hrun : system.Run N state label) (hfew : ∀ t, t ≤ N → ∀ a, (state t).users a < 2147483648)
include hrun hfew

theorem step_run {t : Nat} (ht : t < N) :
    Step (state t) (state (t + 1)) :=
  have hstep := hrun.step t ht
  (exec_spec (ok_run hrun hfew (Nat.le_of_lt ht)) hstep.1 hstep.2 (hfew t (Nat.le_of_lt ht))).2

/-- An inode that has been freed stays so: its address is not used again. -/
theorem users_of_closed {a t u : Nat} (htu : t ≤ u) (hu : u ≤ N) (hold : a < (state t).fs.next)
    (hclosed : (state t).users a = 0) :
    (state u).users a = 0 := by
  have hkeep : a < (state u).fs.next ∧ (state u).users a = 0 := by
    refine keep (P := fun h : Handles => a < h.fs.next ∧ h.users a = 0) htu (fun v _ hv h => ?_)
      ⟨hold, hclosed⟩
    have hstep := step_run hrun hfew (Nat.lt_of_lt_of_le hv hu)
    refine ⟨Nat.lt_of_lt_of_le h.1 hstep.older.1, ?_⟩
    by_contra hne
    have hok := ok_run hrun hfew (Nat.le_of_lt (Nat.lt_of_lt_of_le hv hu))
    have hok' := ok_run hrun hfew (Nat.le_trans hv hu : v + 1 ≤ N)
    obtain ⟨i, hi, hia⟩ := (hok'.open_iff a).mp (Nat.pos_of_ne_zero hne)
    rcases hstep.older.2 i hi with ⟨j, hj, hji⟩ | hle
    · have hpos : 0 < (state v).users a := (hok.open_iff a).mpr ⟨j, hj, hji.trans hia⟩
      omega
    · omega
  exact hkeep.2

end

/-- The last handle of an inode is closed at `t`. -/
def ClosesLast (state : Nat → Handles) (t a : Nat) : Prop :=
  (state t).users a ≠ 0 ∧ (state (t + 1)).users a = 0

/-- **The counts are exact**: what is said of a state. -/
structure Exact (h : Handles) : Prop where
  /-- There is one inode for a sector. -/
  one : h.fs.inodes.Pairwise fun i j => i.sector ≠ j.sector
  /-- The inodes in the list are those with an unclosed handle. -/
  open_iff : ∀ a, 0 < h.users a ↔ ∃ i ∈ h.fs.inodes, i.addr = a
  /-- `inode_open` returns the inode of the sector. -/
  opened : ∀ sector fs a, h.fs.inodeOpen sector = some (fs, some a) →
    ∃ i ∈ fs.inodes, i.addr = a ∧ i.sector = sector
  openCnt : ∀ i ∈ h.fs.inodes, i.openCnt = h.users i.addr
  denyWriteCnt : ∀ i ∈ h.fs.inodes, i.denyWriteCnt =
    (h.fs.files.filter fun f => f.inode = i.addr ∧ f.denyWrite).length
  denyWriteCnt_le : ∀ i ∈ h.fs.inodes, i.denyWriteCnt ≤ i.openCnt
  /-- A write is refused when a file denies it, and only then. -/
  writeAt : ∀ i ∈ h.fs.inodes, ∀ buffer size offset,
    ((∃ f ∈ h.fs.files, f.inode = i.addr ∧ f.denyWrite = true) →
      h.fs.inodeWriteAt i.addr buffer size offset = some (h.fs, 0)) ∧
    ((∀ f ∈ h.fs.files, f.inode = i.addr → f.denyWrite = false) →
      h.fs.inodeWriteAt i.addr buffer size offset = h.fs.writeAllowed i buffer size offset)
  /-- No assertion of `inode_deny_write` or `inode_allow_write` fails. -/
  asserted : ∀ f file, h.fs.file f = some file →
    (h.fs.fileDenyWrite f).isSome ∧ (h.fs.fileAllowWrite f).isSome

theorem Ok.exact (hok : h.Ok) (hfew : ∀ a, h.users a < 2147483648) : h.Exact := by
  have hopenCnt : ∀ i ∈ h.fs.inodes, i.openCnt = h.users i.addr := fun i hi => by
    rw [hok.openCnt i hi]
    exact wrap_of_lt (hfew i.addr)
  have hle : ∀ a, deniers h.fs.files a ≤ h.users a := deniers_le_users h.fs.files h.held
  have hdeny : ∀ i ∈ h.fs.inodes, i.denyWriteCnt = deniers h.fs.files i.addr := fun i hi => by
    rw [hok.denyWriteCnt i hi]
    exact wrap_of_lt (Nat.lt_of_le_of_lt (hle i.addr) (hfew i.addr))
  refine ⟨hok.sectors, hok.open_iff, fun sector fs a hopen => ?_, hopenCnt, fun i hi => ?_,
    fun i hi => ?_, fun i hi buffer size offset => ?_, fun f file hf => ?_⟩
  · obtain ⟨-, -, -, -, hsector⟩ := Fs.inodeOpen_eq_some hopen hok
    exact hsector a rfl
  · rw [hdeny i hi, deniers, countP_eq_length_filter]
  · rw [hdeny i hi, hopenCnt i hi]
    exact Int.ofNat_le.mpr (hle i.addr)
  · have hinode : h.fs.inode i.addr = some i := hok.addrs.get_of_mem hi
    have hpos : i.denyWriteCnt ≠ 0 ↔ ∃ f ∈ h.fs.files, f.inode = i.addr ∧ f.denyWrite = true := by
      rw [hdeny i hi, Int.natCast_ne_zero, Nat.ne_zero_iff_zero_lt, deniers, countP_pos_iff]
      simp
    simp only [Fs.inodeWriteAt, hinode, some_bind]
    refine ⟨fun hex => if_pos (hpos.mpr hex), fun hall => if_neg fun hne => ?_⟩
    obtain ⟨f, hf, hfi, hfd⟩ := hpos.mp hne
    rw [hall f hf hfi] at hfd
    cases hfd
  · obtain ⟨s', hcode, -⟩ := Fs.fileDenyWrite_eq hok hf (hfew _)
    obtain ⟨s'', file', hcode', -⟩ := Fs.fileAllowWrite_eq hok hf (hfew _)
    rw [hcode, hcode']
    exact ⟨rfl, rfl⟩

/-- **The counts of inodes are exact.**  In every run in which no inode has 2^31 handles:
in every state there is one inode for each open sector, its `open_cnt` is the number of its
handles, its `deny_write_cnt` the number of its files that deny writes, a write is refused
where there is such a file, and no assertion about these counts fails; a step changes the
free map only if it closes the last handle of a removed inode, and then releases the sectors
of this inode; and no two steps close the last handle of the same inode. -/
theorem inode_counts_exact (hrun : system.Run N state label)
    (hfew : ∀ t, t ≤ N → ∀ a, (state t).users a < 2147483648) :
    (∀ t, t ≤ N → (state t).Exact) ∧
    (∀ t, t < N →
      (∀ i ∈ (state t).fs.inodes, i.removed = true → ClosesLast state t i.addr →
        Released (state t).fs.freeMap i (state (t + 1)).fs.freeMap) ∧
      ((∀ i ∈ (state t).fs.inodes, i.removed = true → ¬ClosesLast state t i.addr) →
        (state (t + 1)).fs.freeMap = (state t).fs.freeMap)) ∧
    (∀ t u a, t < N → u < N → ClosesLast state t a → ClosesLast state u a → t = u) := by
  refine ⟨fun t ht => Ok.exact (ok_run hrun hfew ht) (hfew t ht), fun t ht => ?_, ?_⟩
  · have hok := ok_run hrun hfew (Nat.le_of_lt ht)
    have hstep := step_run hrun hfew ht
    refine ⟨fun i hi hremoved hlast => hstep.frees.released i hi hlast.2 hremoved, fun hnone => ?_⟩
    refine hstep.frees.same fun i hi hleft => ?_
    by_contra hremoved
    have hpos : 0 < (state t).users i.addr := (hok.open_iff _).mpr ⟨i, hi, rfl⟩
    exact hnone i hi (Bool.eq_true_of_not_eq_false hremoved) ⟨Nat.ne_of_gt hpos, hleft⟩
  · -- after the first of two such steps there would be a handle again
    have hlt : ∀ {t u a}, u < N → t < u → ClosesLast state t a → ¬ClosesLast state u a := by
      intro t u a hu htu hclose hclose'
      have ht : t < N := Nat.lt_trans htu hu
      have hok := ok_run hrun hfew (Nat.le_of_lt ht)
      obtain ⟨i, hi, hia⟩ := (hok.open_iff a).mp (Nat.pos_of_ne_zero hclose.1)
      have hold : a < (state (t + 1)).fs.next := Nat.lt_of_lt_of_le (hia ▸ hok.inode_lt i hi)
        (step_run hrun hfew ht).older.1
      exact hclose'.1 (users_of_closed hrun hfew htu (Nat.le_of_lt hu) hold hclose.2)
    intro t u a ht hu hclose hclose'
    rcases Nat.lt_trichotomy t u with htu | htu | htu
    · exact absurd hclose' (hlt hu htu hclose)
    · exact htu
    · exact absurd hclose (hlt ht htu hclose')

/-- A device of four sectors, with the free map in the third. -/
def small : Handles where
  fs :=
    { inodes := [⟨0, 0, 1, false, 0, ⟨2, 4, inodeMagic⟩⟩]
      files := [⟨1, 0, 0, false⟩]
      next := 2
      device := ⟨4, fun _ => 0⟩
      freeMap := ⟨4, [7#32], by decide, by decide⟩
      freeMapFile := some 1
      answers := [] }
  held := []

theorem small_start : small.Start :=
  ⟨rfl, 1, 0, ⟨2, 4, inodeMagic⟩, rfl, rfl, rfl, by decide, by decide⟩

/-- The inode in sector 1 is opened, removed and closed: its sector is released then. -/
theorem inode_counts_exact_removed :
    ∃ state label, system.Run 3 state label ∧
      (∀ t, t ≤ 3 → (state t).Exact) ∧ ClosesLast state 2 2 ∧
      (state 2).fs.freeMap.bit 1 = true ∧ (state 3).fs.freeMap.bit 1 = false := by
  let labels : List HandleOp := [.open 1, .remove 2, .close 2]
  let state := after (orSelf exec) small labels
  have hrun : system.Run 3 state fun t => labels.getD t (.open 0) :=
    Run.of_checked_labels small_start labels _ fun t ht => by
      have ht : t < 3 := ht
      interval_cases t
      · exact ⟨trivial, by decide +kernel⟩
      · exact ⟨show 0 < _ by decide +kernel, by decide +kernel⟩
      · exact ⟨show _ ∈ _ by decide +kernel, by decide +kernel⟩
  have hfew : ∀ t, t ≤ 3 → ∀ a, (state t).users a < 2147483648 := fun t ht a => by
    refine Nat.lt_of_le_of_lt (Nat.add_le_add countP_le_length count_le_length) ?_
    interval_cases t <;> decide +kernel
  exact ⟨state, _, hrun, (inode_counts_exact hrun hfew).1,
    ⟨by decide +kernel, by decide +kernel⟩, by decide +kernel, by decide +kernel⟩

/-- The inode in sector 1, opened `t` times. -/
def reopened (t : Nat) : Handles where
  fs :=
    { small.fs with
      inodes := ⟨2, 1, wrap t, false, 0,
        InodeDisk.ofBytes (small.fs.device.bytes.load 512 512)⟩ :: small.fs.inodes
      next := 3 }
  held := List.replicate t 2

theorem exec_reopened (t : Nat) (ht : 0 < t) :
    (reopened t).Allowed (.reopen 2) ∧ (reopened t).exec (.reopen 2) = some (reopened (t + 1)) := by
  constructor
  · have hcount : (reopened t).held.count 2 = t := count_replicate_self
    have hpos : 0 < (reopened t).held.count 2 := Nat.lt_of_lt_of_eq ht hcount.symm
    exact Nat.lt_of_lt_of_le hpos (Nat.le_add_left _ _)
  · have hwrap : wrap ((t : Int) + 1) = wrap ((t + 1 : Nat) : Int) := rfl
    rw [reopened, reopened, ← hwrap, ← wrap_wrap_add]
    rfl

/-- **The count overflows** once an inode has 2^31 handles: `inode_reopen` needs no memory,
and nothing else limits their number. -/
theorem openCnt_overflow :
    ∃ state label, system.Run 2147483648 state label ∧
      ∃ i ∈ (state 2147483648).fs.inodes, i.openCnt ≠ (state 2147483648).users i.addr := by
  let state : Nat → Handles := fun t => if t = 0 then small else reopened t
  let label : Nat → HandleOp := fun t => if t = 0 then .open 1 else .reopen 2
  have hrun : ∀ N, system.Run N state label := fun N => by
    refine ⟨small_start, fun t _ => ?_⟩
    cases t with
    | zero => exact ⟨trivial, rfl⟩
    | succ t => exact exec_reopened (t + 1) (Nat.succ_pos t)
  generalize hN : (2147483648 : Nat) = N
  refine ⟨state, label, hrun N, ?_⟩
  have hstate : state N = reopened N := if_neg (by omega)
  rw [hstate]
  refine ⟨_, mem_cons_self, ?_⟩
  have hspec := wrap_spec N
  change wrap N ≠ _
  omega

end Handles
end Pintos.Filesys
