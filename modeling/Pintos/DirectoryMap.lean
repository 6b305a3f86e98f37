import Pintos.Remount
import Pintos.SlotTable

/-!
# A directory as a finite map

The functions of `filesys/directory.c` on a directory of any size, where there is memory.  It
has been made by `dir_create`, on a file system that has been used before, or is the root
directory of a new one.  Its entries are for inodes that `inode_create` makes meanwhile
(`DirCall`); an inode that has no entry may get one (`made`).

**A directory is a finite map from names to sectors** (`directory_is_map`).  In every state of
every run the names of its entries are different and valid.  The functions return what they
do on the map (`IsMap`): `dir_add` succeeds if the name is valid and new and there is room,
`dir_remove` if it is there, `dir_lookup` opens the inode in the sector it stands for, and
`dir_readdir` lists the names.  What becomes of the map is their `effect`.

The size of the directory in bytes is a `size_t`: for 214748365 entries it wraps, and the
directory has room for none.  And `dir_remove` gives up the sectors of the inode: where two
names stand for it, the second cannot be removed (`directory_not_map`).
-/

namespace Pintos.Filesys
open List

open CString TransitionSystem

/-! ## The code -/

namespace Fs

/-- The names that so many calls of `dir_readdir` return, from a position on. -/
def readNames (dir : Nat) : Nat → Fs → Nat → Option (List (Option (List Byte)))
  | 0, _, _ => some []
  | m + 1, s, pos => do
    let (s, pos, name) ← s.dirReaddir dir pos
    some (name :: (← readNames dir m s pos))

end Fs

/-- A directory that is open: its inode and its sector.  There is no entry yet for the inodes
in the sectors `made`. -/
structure DirState where
  fs : Fs
  dir : Nat
  sector : Nat
  made : List Nat

/-- A call, or the making of an inode.  The inode that `dir_lookup` has opened is kept, or
closed. -/
inductive DirCall where
  | make (length : Int)
  | add (name : CharPtr) (sector : Nat) (junk : Memory)
  | lookup (name : CharPtr) (keep : Bool)
  | remove (name : CharPtr)

namespace DirState

/-- The code of a call. -/
def exec (st : DirState) : DirCall → Option DirState
  | .make length => do
    match ← st.fs.freeMapAllocate 1 with
    | (fs, none) => some { st with fs }
    | (fs, some sector) =>
      let (fs, ok) ← fs.inodeCreate sector length
      some { st with fs, made := if ok then sector :: st.made else st.made }
  | .add name sector junk => do
    let (fs, ok) ← st.fs.dirAdd st.dir name sector junk
    some { st with fs, made := if ok then st.made.erase sector else st.made }
  | .lookup name keep => do
    match ← st.fs.dirLookup st.dir name with
    | (fs, none) => some { st with fs }
    | (fs, some a) =>
      if keep then some { st with fs } else some { st with fs := ← fs.inodeClose a }
  | .remove name => do
    let (fs, _) ← st.fs.dirRemove st.dir name
    some { st with fs }

/-- Names are strings, lengths are `off_t`s that are not negative, and entries are made for
inodes that have none. -/
def Allowed (st : DirState) : DirCall → Prop
  | .make length => 0 ≤ length ∧ length < 2147483648
  | .add name sector _ => 0 ∈ name ∧ sector ∈ st.made
  | .lookup name _ | .remove name => 0 ∈ name

/-- The directory in a sector is opened. -/
def openAt (s : Fs) (n : Nat) : Option DirState := do
  let (s, a) ← s.inodeOpen n
  some ⟨s, ← a, n, []⟩

/-- A directory is made in a sector that was free, and opened. -/
def create (s : Fs) (entryCnt : Nat) : Option DirState := do
  let (s, n) ← s.freeMapAllocate 1
  let n ← n
  let (s, ok) ← s.dirCreate n entryCnt
  assert (ok = true)
  openAt s n

/-- A directory has been made, or the root directory of a new file system has been opened. -/
def Start (entryCnt : Nat) (st : DirState) : Prop :=
  (∃ s, Fs.memorySystem.Reachable s ∧ create s entryCnt = some st) ∨
    entryCnt = 16 ∧ ∃ device words s, Fs.filesysInit device words [] true = some s ∧
      openAt s 1 = some st

/-- The system. -/
def system (entryCnt : Nat) : TransitionSystem DirState DirCall :=
  .checked (Start entryCnt) Allowed exec

end DirState

/-! ## The map -/

/-- The name and the sector in an entry that is in use. -/
def slotAt (d : Device) (n k : Nat) : Option (List Byte × Nat) :=
  if entryInUse (entryAt d n k) then
    some (entryString (entryAt d n k), entrySector (entryAt d n k))
  else none

namespace DirState

/-- The names and the sectors in the entries of the directory that are in use. -/
def bindings (st : DirState) (c : Nat) : List (List Byte × Nat) :=
  SlotTable.pairs (slotAt st.fs.device st.sector) c

/-- The names in the directory. -/
def names (st : DirState) (c : Nat) : List (List Byte) :=
  (st.bindings c).map Prod.fst

/-- The sector that a name stands for. -/
def find (st : DirState) (c : Nat) : List Byte → Option Nat :=
  sectorOf st.fs.device st.sector c

/-- What `dir_add` is for: the name is valid and new, and there is room. -/
def CanAdd (st : DirState) (c : Nat) (str : List Byte) : Prop :=
  ValidName str ∧ st.find c str = none ∧ (st.bindings c).length < c

instance (st : DirState) (c : Nat) (str : List Byte) : Decidable (st.CanAdd c str) :=
  inferInstanceAs (Decidable (_ ∧ _))

/-- What a call does to the map. -/
def effect (st : DirState) (c : Nat) : DirCall → List Byte → Option Nat
  | .add name sector _ =>
    if st.CanAdd c (string name) then Function.update (st.find c) (string name) (some sector)
    else st.find c
  | .remove name => Function.update (st.find c) (string name) none
  | .make _ | .lookup _ _ => st.find c

end DirState

/-- **The directory is a finite map** with room for `c` names: what the functions return. -/
structure IsMap (c : Nat) (st : DirState) : Prop where
  nodup : (st.names c).Nodup
  valid : ∀ str ∈ st.names c, ValidName str
  find : ∀ str sector, st.find c str = some sector ↔ (str, sector) ∈ st.bindings c
  add : ∀ name sector junk, 0 ∈ name → sector ∈ st.made →
    ∃ fs, st.fs.dirAdd st.dir name sector junk = some (fs, decide (st.CanAdd c (string name)))
  remove : ∀ name, 0 ∈ name →
    ∃ fs, st.fs.dirRemove st.dir name = some (fs, (st.find c (string name)).isSome)
  lookup : ∀ name, 0 ∈ name → ∃ fs r, st.fs.dirLookup st.dir name = some (fs, r) ∧
    (r = none → st.find c (string name) = none) ∧
    ∀ a, r = some a → ∃ i, fs.inode a = some i ∧ st.find c (string name) = some i.sector
  readdir : ∀ m, st.fs.readNames st.dir m 0 =
    some (((st.names c).map some).takeD m none)
  /-- No call stops. -/
  returns : ∀ call, st.Allowed call → (st.exec call).isSome = true

/-! ## Entries and slots -/

section Slots
variable {d d' : Device} {n c k : Nat} {str : List Byte} {sector : Nat}

theorem slotAt_eq_none : slotAt d n k = none ↔ entryInUse (entryAt d n k) = false := by
  unfold slotAt
  cases entryInUse (entryAt d n k) <;> simp

theorem slotAt_eq_some {p : List Byte × Nat} : slotAt d n k = some p ↔
    Fs.Names d n k p.1 ∧ entrySector (entryAt d n k) = p.2 := by
  unfold slotAt Fs.Names
  cases entryInUse (entryAt d n k) <;> simp [Prod.ext_iff]

theorem NewEntry.slotAt (h : NewEntry (entryAt d n k) str sector) :
    slotAt d n k = some (str, sector) :=
  slotAt_eq_some.mpr ⟨⟨h.inUse, h.name⟩, h.sector⟩

section
variable (h : NamesApart d n c)
include h

theorem NamesApart.slots : SlotTable.Apart (slotAt d n) c := by
  intro j hj k hk p q hp hq heq
  exact h j hj k hk p.1 (slotAt_eq_some.mp hp).1 (heq ▸ (slotAt_eq_some.mp hq).1)

/-- **The table represents the map.** -/
theorem NamesApart.represents :
    SlotTable.Represents (slotAt d n) c (sectorOf d n c) := by
  intro str sector
  constructor
  · intro hsome
    obtain ⟨k, hfind, hsector⟩ := Option.map_eq_some_iff.mp hsome
    have hk := mem_range.mp (mem_of_find?_eq_some hfind)
    have hnames := find?_some hfind
    exact ⟨k, hk, slotAt_eq_some.mpr ⟨of_decide_eq_true hnames, hsector⟩⟩
  · rintro ⟨k, hk, hslot⟩
    obtain ⟨hnames, hsector⟩ := slotAt_eq_some.mp hslot
    rw [sectorOf_of_names h hk hnames]
    exact congrArg some hsector

/-- Entries that do not change are the same map. -/
theorem NamesApart.sectorOf_congr (hentry : ∀ k, k < c → entryAt d' n k = entryAt d n k) :
    sectorOf d' n c = sectorOf d n c := by
  refine (h.congr hentry).represents.unique (h.represents.congr fun k hk => ?_)
  rw [slotAt, slotAt, hentry k hk]

/-- An entry that was free is for a new name. -/
theorem NamesApart.sectorOf_add (hk : k < c) (hfree : entryInUse (entryAt d n k) = false)
    (hnew : NewEntry (entryAt d' n k) str sector)
    (hother : ∀ j, j < c → j ≠ k → entryAt d' n j = entryAt d n j)
    (hfresh : ∀ j, j < c → ¬Fs.Names d n j str) :
    sectorOf d' n c = Function.update (sectorOf d n c) str (some sector) := by
  refine (h.add hnew hother hfresh).represents.unique (h.represents.fill hk
    (slotAt_eq_none.mpr hfree) hnew.slotAt (fun j hj hjk => ?_) (sectorOf_eq_none.mpr hfresh))
  rw [slotAt, slotAt, hother j hj hjk]

/-- The entry of a name is cleared. -/
theorem NamesApart.sectorOf_remove (hk : k < c) (hnames : Fs.Names d n k str)
    (hfree : entryInUse (entryAt d' n k) = false)
    (hother : ∀ j, j < c → j ≠ k → entryAt d' n j = entryAt d n j) :
    sectorOf d' n c = Function.update (sectorOf d n c) str none := by
  refine (h.remove hfree hother).represents.unique (h.represents.clear h.slots hk
    (slotAt_eq_some.mpr ⟨hnames, rfl⟩) (slotAt_eq_none.mpr hfree) fun j hj hjk => ?_)
  rw [slotAt, slotAt, hother j hj hjk]

end

/-- A name is there. -/
theorem isSome_sectorOf :
    (sectorOf d n c str).isSome = true ↔ ∃ k, k < c ∧ Fs.Names d n k str := by
  rw [Option.isSome_iff_ne_none, ne_eq, sectorOf_eq_none]
  simp

end Slots

/-! ## Listing the names -/

section Readdir
variable {s : Fs} {dir n c k : Nat} {e : List Byte}

/-- The name that `dir_readdir` copies out of an entry. -/
theorem strlcpy_entryName (hterm : 0 ∈ entryName e) (hvalid : ValidName (entryString e)) :
    ∃ m l, strlcpy (fun _ => 0) 0 (entryName e) (nameMax + 1) = some (m, l) ∧
      string (m.load 0 (nameMax + 1)) = entryString e := by
  obtain ⟨str, rest, hname, hstr⟩ := exists_string hterm
  rw [entryString, hname, string_append hstr] at hvalid ⊢
  have hlt : str.length < nameMax + 1 := Nat.lt_succ_of_le hvalid.2
  refine ⟨_, _, strlcpy_append (fun _ => 0) 0 rest hstr hlt, ?_⟩
  generalize hm : Memory.store (fun _ => 0) 0 (str ++ [0]) = m
  have hload : m.load 0 (str.length + 1) = str ++ [0] := by
    have h := Memory.load_store (fun _ => 0) 0 (str ++ [0])
    rwa [hm, length_append, length_singleton] at h
  have hsum : nameMax + 1 = (str.length + 1) + (nameMax - str.length) := by omega
  rw [hsum, Memory.load_add, hload, append_assoc]
  exact string_append hstr

section
variable (h : Fs.OpenDir s dir n c) (hnil : s.answers = [])
  (hvalid : ∀ k, k < c → entryInUse (entryAt s.device n k) = true →
    ValidName (entryString (entryAt s.device n k)))
include h hnil hvalid

/-- **`dir_readdir`** gives the next name, or there is none. -/
theorem Fs.OpenDir.dirReaddir (hk : k ≤ c) :
    (∃ m p, k ≤ m ∧ m < c ∧ (∀ j, k ≤ j → j < m → slotAt s.device n j = none) ∧
      slotAt s.device n m = some p ∧
      s.dirReaddir dir (entrySize * k) = some (s, entrySize * (m + 1), some p.1)) ∨
    (∀ j, k ≤ j → j < c → slotAt s.device n j = none) ∧
      s.dirReaddir dir (entrySize * k) = some (s, entrySize * c, none) := by
  obtain ⟨answers, r, m, hcode, hr⟩ := h.scanEntries (fun e => some (entryInUse e)) entryInUse
    (fun _ _ => rfl) hk (c + 1) (by omega) (e := List.replicate entrySize 0) rfl
  have hsame : { s with answers } = s := by
    rw [hr.rest, hnil, drop_nil, ← hnil]
  have hpassed : ∀ j, k ≤ j → j < m → slotAt s.device n j = none := fun j hj hjm =>
    slotAt_eq_none.mpr (hr.passed j hj hjm).1
  rw [hsame] at hcode
  simp only [Fs.dirReaddir, h.rounds, hcode, some_bind, hr.ofs]
  cases hf : r.found with
  | true =>
    obtain ⟨hm, huse, he, -⟩ := hr.found hf
    obtain ⟨out, l, hcopy, hout⟩ := strlcpy_entryName (h.terminated m hm huse) (hvalid m hm huse)
    refine .inl ⟨m, (entryString (entryAt s.device n m), entrySector (entryAt s.device n m)), hr.le,
      hm, hpassed, slotAt_eq_some.mpr ⟨⟨huse, rfl⟩, rfl⟩, ?_⟩
    rw [he, hcopy, if_pos rfl]
    simp only [some_bind, hout, Nat.mul_succ]
  | false =>
    have hm : m = c := by
      by_contra hne
      have hshort := hr.short hf (Nat.lt_of_le_of_ne hr.le_cnt hne)
      rw [hnil] at hshort
      exact nomatch hshort
    subst hm
    exact .inr ⟨hpassed, rfl⟩

/-- **A scan of the directory lists the names**, each once, and then no more. -/
theorem Fs.OpenDir.readNames (calls : Nat) (hk : k ≤ c) :
    s.readNames dir calls (entrySize * k) =
      some ((((SlotTable.pairsFrom (slotAt s.device n) c k).map Prod.fst).map some).takeD calls
        none) := by
  induction calls generalizing k with
  | zero => rfl
  | succ calls ih =>
    rw [Fs.readNames]
    rcases h.dirReaddir hnil hvalid hk with ⟨m, p, hkm, hm, hfree, hp, hcode⟩ | ⟨hfree, hcode⟩
    · rw [hcode, SlotTable.pairsFrom_of_some hkm hm hfree hp]
      simp only [some_bind, ih hm, map_cons]
      rfl
    · rw [hcode, SlotTable.pairsFrom_of_free hfree]
      have hnone : SlotTable.pairsFrom (slotAt s.device n) c c = [] :=
        SlotTable.pairsFrom_of_free fun j hj hjc => absurd hj (Nat.not_le.mpr hjc)
      simp only [some_bind, ih (Nat.le_refl c), hnone, map_nil]
      rfl

end

end Readdir

/-! ## A directory in use -/

/-- The inodes of the files that are open are in the sectors `base`. -/
def FilesIn (s : Fs) (base : Set Nat) : Prop :=
  ∀ f ∈ s.files, ∀ i, s.inode f.inode = some i → i.sector ∈ base

/-- **A directory in use.**  The file system is in order, with the inodes in the sectors `nodes`.
The inodes in the sectors `base` were there before, and the directory has no entry for them. -/
structure DirOrder (c : Nat) (st : DirState) (nodes : Set Nat) (held : List Nat) (base : Set Nat) :
    Prop where
  volume : Volume st.fs st.fs.files nodes held
  directory : Directory st.fs nodes st.sector c
  opened : ∃ i, st.fs.inode st.dir = some i ∧ i.sector = st.sector
  mapFile : st.fs.freeMapFile.isSome = true
  answers : st.fs.answers = []
  names : NamesApart st.fs.device st.sector c
  files : FilesIn st.fs base
  sub : base ⊆ nodes
  entries : ∀ k, k < c → entryInUse (entryAt st.fs.device st.sector k) = true →
    entrySector (entryAt st.fs.device st.sector k) ∉ base
  made : ∀ m ∈ st.made, Unbound st.fs nodes st.sector c m ∧ m ∉ base
  nodup : st.made.Nodup

section Order
variable {s s' : Fs} {c n m a : Nat} {st : DirState} {nodes nodes' base : Set Nat}
  {held held' : List Nat} {name : CharPtr} {i : Inode}

theorem FilesIn.congr (h : FilesIn s base) (hv : Volume s s.files nodes held)
    (hfiles : s'.files = s.files)
    (hsector : ∀ b j j', s.inode b = some j → s'.inode b = some j' → j'.sector = j.sector) :
    FilesIn s' base := by
  intro f hf i hi
  rw [hfiles] at hf
  obtain ⟨j, hj⟩ := hv.counted.get_of_file hf
  rw [hsector f.inode j i hj hi]
  exact h f hf j hj

theorem Unbound.congr (h : Unbound s nodes n c m) (hm : m ∈ nodes')
    (hentry : ∀ k, k < c → entryAt s'.device n k = entryAt s.device n k)
    (hremoved : ∀ i ∈ s'.inodes, i.removed = true →
      ∃ j ∈ s.inodes, j.sector = i.sector ∧ j.removed = true) : Unbound s' nodes' n c m := by
  refine ⟨hm, h.ne_zero, h.ne_dir, fun k hk => ?_, fun i hi hrem => ?_⟩
  · rw [hentry k hk]
    exact h.free k hk
  · obtain ⟨j, hj, hsector, hrem'⟩ := hremoved i hi hrem
    rw [← hsector]
    exact h.kept j hj hrem'

namespace DirOrder

section
variable (h : DirOrder c st nodes held base)
include h

theorem zero_mem : 0 ∈ nodes := by
  obtain ⟨f, hf⟩ := Option.isSome_iff_exists.mp h.mapFile
  exact (h.volume.map f hf).1

/-- A file has none of the inodes in the directory. -/
theorem file_ne {k : Nat} (hk : k < c) (huse : entryInUse (entryAt st.fs.device st.sector k) = true)
    (hi : st.fs.inode a = some i)
    (hsector : entrySector (entryAt st.fs.device st.sector k) = i.sector) :
    ∀ f ∈ st.fs.files, f.inode ≠ a := by
  rintro f hf rfl
  refine h.entries k hk huse ?_
  rw [hsector]
  exact h.files f hf i hi

section
variable (hdir : Directory s' nodes' st.sector c) (hmap : s'.freeMapFile = st.fs.freeMapFile)
  (hnil : s'.answers = []) (hsub : nodes ⊆ nodes')
  (hentry : ∀ k, k < c → entryAt s'.device st.sector k = entryAt st.fs.device st.sector k)
include hdir hmap hnil hsub hentry

/-- Nothing about the entries changes. -/
theorem same (hv : Volume s' st.fs.files nodes' held')
    (hopened : ∃ i, s'.inode st.dir = some i ∧ i.sector = st.sector)
    (hfiles : s'.files = st.fs.files)
    (hsector : ∀ b j j', st.fs.inode b = some j → s'.inode b = some j' → j'.sector = j.sector)
    (hremoved : ∀ i ∈ s'.inodes, i.removed = true →
      ∃ j ∈ st.fs.inodes, j.sector = i.sector ∧ j.removed = true) :
    DirOrder c { st with fs := s' } nodes' held' base ∧
      DirState.find { st with fs := s' } c = st.find c := by
  refine ⟨⟨hfiles.symm ▸ hv, hdir, hopened, hmap.symm ▸ h.mapFile, hnil, h.names.congr hentry,
    h.files.congr h.volume hfiles hsector, h.sub.trans hsub, fun k hk => ?_, fun m hm => ?_,
    h.nodup⟩, h.names.sectorOf_congr hentry⟩
  · rw [hentry k hk]
    exact h.entries k hk
  · obtain ⟨hunbound, hbase⟩ := h.made m hm
    exact ⟨hunbound.congr (hsub hunbound.node) hentry hremoved, hbase⟩

/-- Nothing about the open files changes either. -/
theorem of_table (hv : Volume s' st.fs.files nodes' held)
    (htable : s'.toOpenTable = st.fs.toOpenTable) :
    DirOrder c { st with fs := s' } nodes' held base ∧
      DirState.find { st with fs := s' } c = st.find c := by
  have hinode : ∀ b, s'.inode b = st.fs.inode b := fun b => by
    rw [Fs.inode, Fs.inode, htable]
  refine h.same hdir hmap hnil hsub hentry hv ?_ (by rw [htable]) (fun b j j' hj hj' => ?_)
    fun j hj hrem => ⟨j, by rwa [htable] at hj, rfl, hrem⟩
  · rw [hinode]
    exact h.opened
  · rw [hinode] at hj'
    rw [Option.some.inj (hj'.symm.trans hj)]

end

/-- **An inode is made.** -/
theorem make {length : Int} (h0 : 0 ≤ length) (hlt : length < 2147483648) :
    ∃ st' nodes', st.exec (.make length) = some st' ∧ DirOrder c st' nodes' held base ∧
      st'.find c = st.find c := by
  obtain ⟨s₁, r, hcode₁, hv₁, halloc, hreserved⟩ := h.volume.allocateOne
  obtain ⟨h₁, hfind₁⟩ := h.of_table
    (h.directory.of_mapArea h.volume halloc.device halloc.table) halloc.freeMapFile
    (halloc.answers h.answers) (fun _ hx => hx)
    (fun k hk => h.directory.entry_of_mapArea h.volume halloc.device hk) hv₁ halloc.table
  rw [DirState.exec, hcode₁]
  cases r with
  | none => exact ⟨_, nodes, rfl, h₁, hfind₁⟩
  | some m =>
    have hm := hreserved m rfl
    obtain ⟨s₂, ok, hcode₂, hcreate⟩ := h₁.volume.inodeCreate hm h0 hlt
    simp only [some_bind, hcode₂]
    cases ok with
    | false =>
      obtain ⟨hv₂, -, hsame, -⟩ := hcreate.failed rfl
      obtain ⟨h₂, hfind₂⟩ := h₁.of_table
        (h₁.directory.of_mapArea h₁.volume hsame hcreate.table) hcreate.freeMapFile
        (hcreate.answers h₁.answers) (fun _ hx => hx)
        (fun k hk => h₁.directory.entry_of_mapArea h₁.volume hsame hk) hv₂ hcreate.table
      exact ⟨_, nodes, rfl, h₂, hfind₂.trans hfind₁⟩
    | true =>
      obtain ⟨hdir, hunbound, hentry⟩ := h₁.directory.created h₁.volume h₁.zero_mem hm hcreate
      obtain ⟨h₂, hfind₂⟩ := h₁.of_table hdir hcreate.freeMapFile
        (hcreate.answers h₁.answers) (fun _ hx => .inr hx) hentry (hcreate.created rfl).1 hcreate.table
      refine ⟨_, insert m nodes, rfl, ⟨h₂.volume, h₂.directory, h₂.opened, h₂.mapFile, h₂.answers,
        h₂.names, h₂.files, h₂.sub, h₂.entries, ?_, ?_⟩, hfind₂.trans hfind₁⟩
      · intro x hx
        rcases mem_cons.mp hx with rfl | hx
        · exact ⟨hunbound, fun hbase => hm.notMem (h.sub hbase)⟩
        · exact h₂.made x hx
      · exact nodup_cons.mpr ⟨fun hx => hm.notMem (h.made m hx).1.node, h.nodup⟩

end

/-- There is room exactly where an entry is free. -/
theorem room_iff (st : DirState) (c : Nat) : (st.bindings c).length < c ↔
    ∃ k, k < c ∧ entryInUse (entryAt st.fs.device st.sector k) = false := by
  rw [DirState.bindings, SlotTable.length_pairs_lt]
  simp only [slotAt_eq_none]

/-- **`dir_add`.** -/
theorem add (h : DirOrder c st nodes held base) (hname : 0 ∈ name) (hm : m ∈ st.made)
    (junk : Memory) :
    ∃ fs, st.fs.dirAdd st.dir name m junk = some (fs, decide (st.CanAdd c (string name))) ∧
      ∃ st', st.exec (.add name m junk) = some st' ∧ DirOrder c st' nodes held base ∧
        st'.find c = st.effect c (.add name m junk) := by
  obtain ⟨i, hi, hsector⟩ := h.opened
  obtain ⟨hunbound, hbase⟩ := h.made m hm
  have hlt : m < unsignedSize := by
    have hsize := h.volume.owned.size_lt
    have harea := h.volume.owned.area_lt hunbound.node (.inl rfl)
    omega
  obtain ⟨answers, device, ok, hcode, hadded⟩ :=
    (h.directory.openDir h.volume hi hsector).dirAdd hname hlt junk
  obtain ⟨hv, hdir, hsame⟩ := h.directory.add h.volume hunbound hadded
  have hnil := hadded.answers h.answers
  have hcan : ok = decide (st.CanAdd c (string name)) := by
    rw [Bool.eq_iff_iff, decide_eq_true_iff, hadded.success h.answers, DirState.CanAdd, room_iff,
      DirState.find, sectorOf_eq_none]
  refine ⟨_, hcan ▸ hcode, _, by rw [DirState.exec, hcode]; rfl, ?_⟩
  have hcan' : ok = true ↔ st.CanAdd c (string name) := by rw [hcan, decide_eq_true_iff]
  cases ok with
  | false =>
    have hdevice := hadded.failed rfl
    rw [DirState.effect, if_neg fun hadd => nomatch hcan'.mpr hadd]
    exact h.of_table hdir rfl hnil (fun _ hx => hx) (fun k hk => by rw [hdevice]) hv rfl
  | true =>
    obtain ⟨hvalid, k, e, hk, hnew, rfl, hfree⟩ := hadded.done rfl
    obtain ⟨-, -, -, hself, hother⟩ := h.directory.putEntry h.volume hk hnew.length answers fun _ =>
      ⟨hnew.terminated, hnew.name ▸ hvalid, hnew.sector ▸ hunbound⟩
    obtain ⟨-, hfresh, -⟩ := (hadded.success h.answers).mp rfl
    have hnew' : NewEntry (entryAt (putEntry st.fs.device st.sector k e) st.sector k)
        (string name) m := hself.symm ▸ hnew
    refine ⟨⟨hv, hdir, h.opened, h.mapFile, hnil,
      h.names.add hnew' (fun j _ hj => hother j hj) hfresh, h.files, h.sub, fun j hj => ?_,
      fun x hx => ?_, h.nodup.erase m⟩, ?_⟩
    · change entryInUse (entryAt (putEntry st.fs.device st.sector k e) st.sector j) = true →
        entrySector (entryAt (putEntry st.fs.device st.sector k e) st.sector j) ∉ base
      by_cases hjk : j = k
      · rw [hjk, hnew'.sector]
        exact fun _ => hbase
      · rw [hother j hjk]
        exact h.entries j hj
    · obtain ⟨hne, hx⟩ := h.nodup.mem_erase_iff.mp hx
      obtain ⟨hunbound', hbase'⟩ := h.made x hx
      refine ⟨⟨hunbound'.node, hunbound'.ne_zero, hunbound'.ne_dir, fun j hj => ?_, hunbound'.kept⟩,
        hbase'⟩
      by_cases hjk : j = k
      · rw [hjk, hnew'.sector]
        exact fun _ => Ne.symm hne
      · rw [hother j hjk]
        exact hunbound'.free j hj
    · rw [DirState.effect, if_pos (hcan'.mp rfl)]
      exact h.names.sectorOf_add hk (hfree h.answers) hnew' (fun j _ hj => hother j hj) hfresh

/-- **`dir_lookup`.** -/
theorem lookup (h : DirOrder c st nodes held base) (hname : 0 ∈ name) :
    ∃ fs r, st.fs.dirLookup st.dir name = some (fs, r) ∧
      DirOrder c { st with fs } nodes (r.toList ++ held) base ∧
      DirState.find { st with fs } c = st.find c ∧
      (r = none → st.find c (string name) = none) ∧
      ∀ a, r = some a → ∃ k i, k < c ∧ Fs.Names fs.device st.sector k (string name) ∧
        fs.inode a = some i ∧ i.sector = entrySector (entryAt fs.device st.sector k) := by
  obtain ⟨i, hi, hsector⟩ := h.opened
  obtain ⟨s', r, hcode, hv, hdir, hlooked⟩ := h.directory.dirLookup h.volume hi hsector hname
  have hentry : ∀ k, entryAt s'.device st.sector k = entryAt st.fs.device st.sector k := fun k => by
    rw [hlooked.device]
  have hsectors : ∀ b j j', st.fs.inode b = some j → s'.inode b = some j' →
      j'.sector = j.sector := fun b j _ hj => Fs.sector_of_core (hlooked.kept b j hj)
  obtain ⟨i', hi', -⟩ := hlooked.kept st.dir i hi
  obtain ⟨h', hfind⟩ := h.same hdir hlooked.freeMapFile (hlooked.answers h.answers)
    (fun _ hx => hx) (fun k _ => hentry k) hv
    ⟨i', hi', (hsectors st.dir i i' hi hi').trans hsector⟩ hlooked.files hsectors hlooked.removed
  refine ⟨s', r, hcode, h', hfind, fun hr => ?_, fun a ha => ?_⟩
  · refine sectorOf_eq_none.mpr fun k hk hnames => ?_
    have hsome := hlooked.success h.answers ⟨k, hk, hnames⟩
    rw [hr] at hsome
    exact nomatch hsome
  · rw [hlooked.device]
    exact hlooked.found a ha

/-- The inode that has been looked up is closed. -/
theorem close (h : DirOrder c st nodes (a :: held) base) {k : Nat} (hk : k < c)
    (huse : entryInUse (entryAt st.fs.device st.sector k) = true) (hi : st.fs.inode a = some i)
    (hsector : i.sector = entrySector (entryAt st.fs.device st.sector k)) :
    ∃ fs held', st.fs.inodeClose a = some fs ∧ DirOrder c { st with fs } nodes held' base ∧
      DirState.find { st with fs } c = st.find c := by
  have he := h.directory.entry k hk huse
  have hkeep : i.removed = false := by
    by_contra hrem
    exact (h.directory.removed i (Objects.mem_of_get hi) (Bool.eq_true_of_not_eq_false hrem)).2.2
      k hk huse hsector.symm
  obtain ⟨s', nodes', held', hcode, hv, hclosed⟩ := h.volume.inodeClose mem_cons_self hi
    (fun _ => h.file_ne hk huse hi hsector.symm) (fun _ => hsector ▸ he.ne_zero) fun _ => h.mapFile
  obtain rfl : nodes' = nodes := hclosed.nodes_eq hkeep
  obtain ⟨-, hdevice⟩ := hclosed.same hkeep
  obtain ⟨j, hj, hj'⟩ := h.opened
  have hne : st.dir ≠ a := by
    rintro rfl
    rw [Option.some.inj (hj.symm.trans hi), hsector] at hj'
    exact he.ne_dir hj'
  exact ⟨s', held', hcode, h.same (h.directory.close h.volume hclosed hi)
    hclosed.freeMapFile (hclosed.answers h.answers) (fun _ hx => hx) (fun k _ => by rw [hdevice]) hv
    ⟨j, hclosed.kept st.dir j hne hj, hj'⟩ hclosed.files
    (fun b j j' hj hj' => hclosed.sector_eq h.volume hj hj')
    fun j hj hrem => hclosed.removed hj hrem⟩

section
variable (h : DirOrder c st nodes held base)
include h

/-- **`dir_remove`.** -/
theorem remove (hname : 0 ∈ name) :
    ∃ fs nodes' held', st.fs.dirRemove st.dir name =
        some (fs, (st.find c (string name)).isSome) ∧
      DirOrder c { st with fs } nodes' held' base ∧
      DirState.find { st with fs } c = Function.update (st.find c) (string name) none := by
  obtain ⟨i, hi, hsector⟩ := h.opened
  obtain ⟨s', ok, nodes', held', hcode, hv, hdir, hremoved⟩ := h.directory.dirRemove h.volume hi
    hsector h.mapFile (fun b j hj ⟨k, hk, huse, heq⟩ _ => h.file_ne hk huse hj heq) hname
  have hok : ok = (st.find c (string name)).isSome := by
    rw [Bool.eq_iff_iff, hremoved.success h.answers, DirState.find, isSome_sectorOf]
  refine ⟨s', nodes', held', hok ▸ hcode, ?_⟩
  cases ok with
  | false =>
    obtain ⟨hdevice, -, rfl⟩ := hremoved.failed rfl
    have hnone : st.find c (string name) = none := Option.not_isSome_iff_eq_none.mp
      (Bool.eq_false_iff.mp hok.symm)
    rw [← hnone, Function.update_eq_self]
    refine h.same hdir hremoved.freeMapFile (hremoved.answers h.answers) (fun _ hx => hx)
      (fun k _ => by rw [hdevice]) hv hremoved.opened hremoved.files hremoved.sector
      fun j hj hrem => ?_
    rcases hremoved.removed j hj hrem with hold | ⟨hok', -⟩
    · exact hold
    · exact nomatch hok'
  | true =>
    obtain ⟨k, hk, hnames, hfree, hother, -, hlost⟩ := hremoved.done rfl
    -- A sector that is not in the entry keeps its inode.
    have hkeep : ∀ x ∈ nodes, x ≠ entrySector (entryAt st.fs.device st.sector k) → x ∈ nodes' := by
      intro x hx hne
      by_contra hgone
      exact hne (hlost x hx hgone)
    have hentries : ∀ j, j < c → entryInUse (entryAt s'.device st.sector j) = true →
        entryAt s'.device st.sector j = entryAt st.fs.device st.sector j := by
      intro j hj huse
      refine hother j hj ?_
      rintro rfl
      exact nomatch hfree.symm.trans huse
    refine ⟨⟨hremoved.files.symm ▸ hv, hdir, hremoved.opened, hremoved.freeMapFile ▸ h.mapFile,
      hremoved.answers h.answers, h.names.remove hfree hother,
      h.files.congr h.volume hremoved.files hremoved.sector, fun x hx => ?_, fun j hj huse => ?_,
      fun x hx => ?_, h.nodup⟩, h.names.sectorOf_remove hk hnames hfree hother⟩
    · refine hkeep x (h.sub hx) ?_
      rintro rfl
      exact h.entries k hk hnames.1 hx
    · have heq := hentries j hj huse
      rw [heq] at huse ⊢
      exact h.entries j hj huse
    · obtain ⟨hunbound, hbase⟩ := h.made x hx
      refine ⟨⟨hkeep x hunbound.node (Ne.symm (hunbound.free k hk hnames.1)), hunbound.ne_zero,
        hunbound.ne_dir, fun j hj huse => ?_, fun j hj hrem => ?_⟩, hbase⟩
      · have heq := hentries j hj huse
        rw [heq] at huse ⊢
        exact hunbound.free j hj huse
      · rcases hremoved.removed j hj hrem with
          ⟨j', hj', hsector', hrem'⟩ | ⟨-, k', hk', hnames', heq⟩
        · rw [← hsector']
          exact hunbound.kept j' hj' hrem'
        · rw [heq]
          exact hunbound.free k' hk' hnames'.1

/-- **A call** returns, keeps the directory in order and does to the map what it is for. -/
theorem exec {call : DirCall} (hcall : st.Allowed call) :
    ∃ st' nodes' held', st.exec call = some st' ∧ DirOrder c st' nodes' held' base ∧
      st'.find c = st.effect c call := by
  cases call with
  | make length =>
    obtain ⟨st', nodes', hcode, h', hfind⟩ := h.make hcall.1 hcall.2
    exact ⟨st', nodes', held, hcode, h', hfind⟩
  | add name sector junk =>
    obtain ⟨-, -, st', hcode, h', hfind⟩ := h.add hcall.1 hcall.2 junk
    exact ⟨st', nodes, held, hcode, h', hfind⟩
  | lookup name keep =>
    obtain ⟨s', r, hcode, h', hfind, -, hfound⟩ := h.lookup hcall
    simp only [DirState.exec, hcode, some_bind]
    cases r with
    | none => exact ⟨_, nodes, held, rfl, h', hfind⟩
    | some a =>
      cases keep with
      | true => exact ⟨_, nodes, a :: held, rfl, h', hfind⟩
      | false =>
        obtain ⟨k, i, hk, hnames, hi, hsector⟩ := hfound a rfl
        obtain ⟨s'', held', hcode', h'', hfind'⟩ := h'.close hk hnames.1 hi hsector
        exact ⟨_, nodes, held', by simp only [hcode']; rfl, h'', hfind'.trans hfind⟩
  | remove name =>
    obtain ⟨s', nodes', held', hcode, h', hfind⟩ := h.remove hcall
    exact ⟨_, nodes', held', by rw [DirState.exec, hcode]; rfl, h', hfind⟩

/-- **The directory is a map.** -/
theorem isMap : IsMap c st := by
  obtain ⟨i, hi, hsector⟩ := h.opened
  have hopen := h.directory.openDir h.volume hi hsector
  have hvalid : ∀ k, k < c → entryInUse (entryAt st.fs.device st.sector k) = true →
      ValidName (entryString (entryAt st.fs.device st.sector k)) := fun k hk huse =>
    (h.directory.entry k hk huse).valid
  refine ⟨h.names.slots.nodup_keys, fun str hstr => ?_, fun str sector => ?_,
    fun name sector junk hname hm => ?_, fun name hname => ?_, fun name hname => ?_, fun m => ?_,
    fun call hcall => ?_⟩
  · obtain ⟨p, hp, rfl⟩ := mem_map.mp hstr
    obtain ⟨k, hk, hslot⟩ := SlotTable.mem_pairs.mp hp
    obtain ⟨hnames, -⟩ := slotAt_eq_some.mp hslot
    exact hnames.2 ▸ hvalid k hk hnames.1
  · exact (h.names.represents str sector).trans SlotTable.mem_pairs.symm
  · obtain ⟨s', hcode, -⟩ := h.add hname hm junk
    exact ⟨s', hcode⟩
  · obtain ⟨s', -, -, hcode, -⟩ := h.remove hname
    exact ⟨s', hcode⟩
  · obtain ⟨s', r, hcode, h', hfind, hnone, hfound⟩ := h.lookup hname
    refine ⟨s', r, hcode, hnone, fun a ha => ?_⟩
    obtain ⟨k, i, hk, hnames, hi, hsector⟩ := hfound a ha
    refine ⟨i, hi, ?_⟩
    rw [← hfind, hsector]
    exact sectorOf_of_names h'.names hk hnames
  · have hcode := hopen.readNames h.answers hvalid m (Nat.zero_le c)
    rwa [Nat.mul_zero] at hcode
  · obtain ⟨st', -, -, hcode, -⟩ := h.exec hcall
    rw [hcode]
    rfl

end

/-- A directory without entries is opened. -/
theorem of_empty {s : Fs} {n : Nat} (hv : Volume s s.files nodes held)
    (hdir : Directory s nodes n c) (hfree : ∀ k, k < c → entryInUse (entryAt s.device n k) = false)
    (hmap : s.freeMapFile.isSome = true) (hnil : s.answers = []) (hfiles : FilesIn s base)
    (hsub : base ⊆ nodes) (hopen : s.inodeOpen n = some (s', some a)) :
    DirOrder c ⟨s', a, n, []⟩ nodes (a :: held) base ∧
      ∀ str, DirState.find ⟨s', a, n, []⟩ c str = none := by
  obtain ⟨s'', r, hcode, hv', hopened⟩ := hv.inodeOpen hdir.node
  obtain ⟨rfl, rfl⟩ := Prod.mk.inj (Option.some.inj (hcode.symm.trans hopen))
  have hunchanged : Unchanged s.device s''.device fun _ => True :=
    ⟨by rw [hopened.device], fun x _ => by rw [hopened.device]⟩
  have hfree' : ∀ k, k < c → entryInUse (entryAt s''.device n k) = false := by
    rw [hopened.device]
    exact hfree
  refine ⟨⟨hopened.files.symm ▸ hv', ?_, hopened.inode a rfl, hopened.freeMapFile ▸ hmap,
    hopened.answers hnil, fun j hj k _ str hnames _ => ?_,
    hfiles.congr hv hopened.files fun b j j' hj hj' => hopened.sector_eq hj hj', hsub,
    fun k hk huse => ?_, fun m hm => ?_, nodup_nil⟩, fun str => ?_⟩
  · exact hdir.congr hv.owned hunchanged (fun _ _ => trivial) hdir.node
      (fun k hk huse => (hdir.entry k hk huse).node) hopened.removed
  · exact nomatch (hfree' j hj).symm.trans hnames.1
  · exact nomatch (hfree' k hk).symm.trans huse
  · exact nomatch hm
  · exact sectorOf_eq_none.mpr fun k hk hnames => nomatch (hfree' k hk).symm.trans hnames.1

end DirOrder

/-- The inodes of the files are inodes of the volume. -/
theorem Volume.filesIn (h : Volume s s.files nodes held) : FilesIn s nodes := fun _ _ i hi =>
  (h.opened i (Objects.mem_of_get hi)).1

/-- `dir_create` that returns has been given a size that an `off_t` can hold. -/
theorem dirCreate_length {entryCnt : Nat} {r : Fs × Bool} (hcnt : entryCnt * 20 < unsignedSize)
    (h : s.dirCreate n entryCnt = some r) :
    s.inodeCreate n (entrySize * entryCnt : Nat) = some r ∧ entrySize * entryCnt < 2147483648 := by
  have hlength : 0 ≤ toOff (entryCnt * 20 % unsignedSize) := by
    obtain ⟨_, hassert, -⟩ := of_bind h
    exact of_assert hassert
  have hlt : entryCnt * 20 < 2147483648 := by
    rw [Nat.mod_eq_of_lt hcnt, toOff] at hlength
    unfold unsignedSize at hcnt
    split at hlength <;> omega
  rw [Fs.dirCreate, Nat.mod_eq_of_lt hcnt, toOff, if_pos hlt, Nat.mul_comm] at h
  exact ⟨h, by rw [Nat.mul_comm]; exact hlt⟩

/-- **A directory that has been made** by `dir_create`, in a sector that is reserved for it. -/
theorem Settled.dirCreate {entryCnt : Nat} {s₁ s₂ : Fs} (h : Settled s nodes)
    (hcnt : entryCnt * 20 < unsignedSize) (halloc : s.freeMapAllocate 1 = some (s₁, some n))
    (hcreate : s₁.dirCreate n entryCnt = some (s₂, true))
    (hopen : s₂.inodeOpen n = some (s', some a)) :
    DirOrder entryCnt ⟨s', a, n, []⟩ (insert n nodes) [a] nodes ∧
      ∀ str, DirState.find ⟨s', a, n, []⟩ entryCnt str = none := by
  obtain ⟨s₁', r, hcode₁, h₁, hallocated, hreserved⟩ := h.ordered.allocate
  cases hcode₁.symm.trans halloc
  obtain ⟨hcreate, hlt⟩ := dirCreate_length hcnt hcreate
  obtain ⟨s₂', ok, hcode₂, hinode, -, hcreated⟩ := h₁.create (hreserved n rfl)
    (Int.natCast_nonneg _) (Int.ofNat_lt.mpr hlt)
  obtain ⟨rfl, rfl⟩ := Prod.mk.inj (Option.some.inj (hcode₂.symm.trans hcreate))
  obtain ⟨h₂, hunbound⟩ := hcreated rfl
  obtain ⟨hv₂, hnew⟩ := hinode.created rfl
  have hfree : ∀ k, k < entryCnt → entryInUse (entryAt s₂'.device n k) = false := fun k hk =>
    entryInUse_of_zeros hk hnew.zeros
  refine DirOrder.of_empty h₂.volume ⟨.inl rfl, hunbound.ne_zero, hnew.length_eq, ?_, ?_, ?_⟩ hfree
    h₂.mapFile (hinode.answers (hallocated.answers h.answers)) ?_ (Set.subset_insert n nodes) hopen
  · exact fun k hk huse => nomatch (hfree k hk).symm.trans huse
  · exact fun j hj k _ huse => nomatch (hfree j hj).symm.trans huse
  · exact fun i hi hrem => ⟨(h₂.directory.removed i hi hrem).1, hunbound.kept i hi hrem,
      fun k hk huse => nomatch (hfree k hk).symm.trans huse⟩
  · refine h₁.volume.filesIn.congr h₁.volume (by rw [hinode.table]) fun b j j' hj hj' => ?_
    rw [Fs.inode, hinode.table] at hj'
    rw [Option.some.inj (hj'.symm.trans hj)]

theorem openAt_eq_some (h : DirState.openAt s n = some st) :
    ∃ s' a, s.inodeOpen n = some (s', some a) ∧ st = ⟨s', a, n, []⟩ := by
  obtain ⟨⟨s', r⟩, hcode, h⟩ := of_bind h
  obtain ⟨a, rfl, h⟩ := of_bind h
  exact ⟨s', a, hcode, (Option.some.inj h).symm⟩

/-- **Every directory is in order at the start**, and has no names. -/
theorem DirState.Start.dirOrder {entryCnt : Nat} (hcnt : entryCnt * 20 < unsignedSize)
    (h : st.Start entryCnt) :
    ∃ nodes held base, DirOrder entryCnt st nodes held base ∧
      ∀ str, st.find entryCnt str = none := by
  rcases h with ⟨s₀, hreach, hcreate⟩ | ⟨rfl, device, words, s₀, hinit, hopen⟩
  · obtain ⟨nodes, h₀⟩ := settled_of_reachable hreach
    obtain ⟨⟨s₁, r⟩, halloc, hrest⟩ := of_bind hcreate
    obtain ⟨n, hn, hrest⟩ := of_bind hrest
    obtain ⟨⟨s₂, ok⟩, hdir, hrest⟩ := of_bind hrest
    obtain ⟨_, hok, hopen⟩ := of_bind hrest
    subst hn
    obtain rfl := of_assert hok
    obtain ⟨s', a, hinode, rfl⟩ := openAt_eq_some hopen
    exact ⟨_, _, _, h₀.dirCreate hcnt halloc hdir hinode⟩
  · obtain ⟨s', a, hinode, rfl⟩ := openAt_eq_some hopen
    obtain ⟨hformatted, -, hnil⟩ := formatted_of_init hinit
    have h₀ := hformatted.ordered
    have hfree : ∀ k, k < 16 → entryInUse (entryAt s₀.device 1 k) = false := fun k hk =>
      entryInUse_of_zeros hk (by
        rw [show entrySize * 16 = 320 from rfl]
        exact hformatted.zeros)
    exact ⟨_, _, _, DirOrder.of_empty h₀.volume h₀.directory hfree h₀.mapFile (hnil rfl)
      h₀.volume.filesIn Set.Subset.rfl hinode⟩

/-! ## Runs -/

variable {entryCnt N : Nat} {state : Nat → DirState} {label : Nat → DirCall}

theorem dirOrder_run (hcnt : entryCnt * 20 < unsignedSize)
    (hrun : (DirState.system entryCnt).Run N state label) {t : Nat} (ht : t ≤ N) :
    ∃ nodes held base, DirOrder entryCnt (state t) nodes held base := by
  refine (hrun.reachable ht).invariant
    (P := fun st => ∃ nodes held base, DirOrder entryCnt st nodes held base) ?_ ?_
  · intro st hstart
    obtain ⟨nodes, held, base, h, -⟩ := hstart.dirOrder hcnt
    exact ⟨nodes, held, base, h⟩
  · rintro st call st' ⟨nodes, held, base, h⟩ ⟨hcall, hcode⟩
    obtain ⟨st'', nodes', held', hcode', h', -⟩ := h.exec hcall
    cases hcode'.symm.trans hcode
    exact ⟨nodes', held', base, h'⟩

/-- **A directory is a finite map from names to sectors**, with room for as many names as it was
made for: it is empty at first, in every state the functions return what they should, and
every call does to the map what it is for. -/
theorem directory_is_map (hcnt : entryCnt * 20 < unsignedSize)
    (hrun : (DirState.system entryCnt).Run N state label) :
    (∀ str, (state 0).find entryCnt str = none) ∧ (∀ t, t ≤ N → IsMap entryCnt (state t)) ∧
      ∀ t, t < N → (state (t + 1)).find entryCnt = (state t).effect entryCnt (label t) := by
  refine ⟨?_, fun t ht => ?_, fun t ht => ?_⟩
  · obtain ⟨-, -, -, -, hempty⟩ := hrun.init.dirOrder hcnt
    exact hempty
  · obtain ⟨nodes, held, base, h⟩ := dirOrder_run hcnt hrun ht
    exact h.isMap
  · obtain ⟨nodes, held, base, h⟩ := dirOrder_run hcnt hrun (Nat.le_of_lt ht)
    obtain ⟨hcall, hcode⟩ := hrun.step t ht
    obtain ⟨st', -, -, hcode', -, hfind⟩ := h.exec hcall
    rw [Option.some.inj (hcode.symm.trans hcode')]
    exact hfind

end Order

/-- A name is added, looked up and removed in a directory with two entries, and then another is
added for a new inode. -/
theorem directory_is_map_two :
    ∃ state label, (DirState.system 2).Run 6 state label ∧ (∀ t, t ≤ 6 → IsMap 2 (state t)) ∧
      (state 2).find 2 [97] = some 6 ∧ (state 6).names 2 = [[98, 98]] := by
  let calls : List DirCall := [.make 0, .add [97, 0] 6 fun _ => 0, .lookup [97, 0] false,
    .remove [97, 0], .make 0, .add [98, 98, 0] 6 fun _ => 0]
  let start := (DirState.create eightFormatted 2).getD ⟨eightFormatted, 0, 0, []⟩
  let state := after (orSelf DirState.exec) start calls
  -- the code is run once for all that is to be seen
  obtain ⟨hcreate, hreturns, hmade, hmade', hend⟩ :
      (DirState.create eightFormatted 2).isSome = true ∧
      (∀ t, t < 6 → ((state t).exec (calls.getD t (.make 0))).isSome = true) ∧
      6 ∈ (state 1).made ∧ 6 ∈ (state 5).made ∧
      (state 2).find 2 [97] = some 6 ∧ (state 6).names 2 = [[98, 98]] := by decide +kernel
  have hstart : DirState.Start 2 start :=
    .inl ⟨eightFormatted, .init ⟨_, _, filesysInit_eightSectors⟩,
      (Option.getD_of_ne_none (Option.isSome_iff_ne_none.mp hcreate) _).symm⟩
  have hrun : (DirState.system 2).Run 6 state fun t => calls.getD t (.make 0) :=
    Run.of_checked_labels hstart calls _ fun t ht => by
      refine ⟨?_, hreturns t ht⟩
      have ht : t < 6 := ht
      interval_cases t
      · exact ⟨by decide, by decide⟩
      · exact ⟨by decide, hmade⟩
      · exact show 0 ∈ _ by decide
      · exact show 0 ∈ _ by decide
      · exact ⟨by decide, by decide⟩
      · exact ⟨by decide, hmade'⟩
  exact ⟨state, _, hrun, (directory_is_map (by decide) hrun).2.1, hend⟩

/-- **A directory is not a map** with room for as many names as it was made for, where the size
of the table wraps: it has room for none.  Nor is it one where two names stand for the same
inode: when the first is removed, the sectors of the inode are released, and `dir_remove` of the
second stops. -/
theorem directory_not_map :
    (∃ st st', DirState.create eightFormatted 214748365 = some st ∧
      st.exec (.make 0) = some st' ∧ st'.made = [6] ∧
      ∃ s', st'.fs.dirAdd st'.dir [97, 0] 6 (fun _ => 0) = some (s', false)) ∧
    ∃ st st', DirState.create eightFormatted 2 = some st ∧
      [.make 0, .add [97, 0] 6 fun _ => 0, .add [98, 0] 6 fun _ => 0, .remove [97, 0]].foldlM
        DirState.exec st = some st' ∧
      st'.find 2 [98] = some 6 ∧ st'.fs.dirRemove st'.dir [98, 0] = none := by
  have hwrap : (DirState.create eightFormatted 214748365).any (fun st =>
      (st.exec (.make 0)).any fun st' => st'.made = [6] ∧
        (st'.fs.dirAdd st'.dir [97, 0] 6 fun _ => 0).any fun r => !r.2) = true := by
    decide +kernel
  have htwice : (DirState.create eightFormatted 2).any (fun st =>
      ([.make 0, .add [97, 0] 6 fun _ => 0, .add [98, 0] 6 fun _ => 0, .remove [97, 0]].foldlM
        DirState.exec st).any fun st' => st'.find 2 [98] = some 6 ∧
          (st'.fs.dirRemove st'.dir [98, 0]).isNone) = true := by
    decide +kernel
  refine ⟨?_, ?_⟩
  · obtain ⟨st, hst, h⟩ := (Option.any_eq_true _ _).mp hwrap
    obtain ⟨st', hst', h⟩ := (Option.any_eq_true _ _).mp h
    obtain ⟨hmade, h⟩ := of_decide_eq_true h
    obtain ⟨⟨s', ok⟩, hadd, hok⟩ := (Option.any_eq_true _ _).mp h
    obtain rfl : ok = false := by simpa using hok
    exact ⟨st, st', hst, hst', hmade, s', hadd⟩
  · obtain ⟨st, hst, h⟩ := (Option.any_eq_true _ _).mp htwice
    obtain ⟨st', hst', h⟩ := (Option.any_eq_true _ _).mp h
    obtain ⟨hfind, hstop⟩ := of_decide_eq_true h
    exact ⟨st, st', hst, hst', hfind, Option.isNone_iff_eq_none.mp hstop⟩

end Pintos.Filesys
