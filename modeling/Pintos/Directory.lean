import Pintos.Mount

/-!
# Directories

`filesys/directory.c`.  A directory is an inode whose data is a table of entries of 20
bytes: the sector of an inode, a name of at most 14 characters with its terminator, and
whether the entry is in use.  `lookup`, the search for a free entry in `dir_add` and
`dir_readdir` go through the table in the same way (`scanEntries`), until the entry they
look for or a read that comes back short: at the end of the table, or where there is no
memory for the bounce buffer.

What the functions read and write is described by the entries of the table
(`Table`): an entry in use is for an inode of the volume, no two are for the same one, and
none is for an inode that has been removed.
-/

namespace Pintos.Filesys
open List

open CString

/-! ## The code -/

/-- `sizeof (struct dir_entry)`. -/
def entrySize : Nat := 20

/-- `NAME_MAX`. -/
def nameMax : Nat := 14

/-- `e.inode_sector`. -/
def entrySector (e : List Byte) : Nat :=
  leWord e

/-- `e.name`: the bytes from there to the end of the entry. -/
def entryName (e : List Byte) : CharPtr :=
  e.drop 4

/-- `e.in_use`. -/
def entryInUse (e : List Byte) : Bool :=
  e.getD 19 0 ≠ 0

/-- `e.in_use = value`. -/
def setInUse (e : List Byte) (value : Bool) : List Byte :=
  e.take 19 ++ [if value then 1 else 0]

/-- `strlcpy (e.name, name, sizeof e.name)`. -/
def setName (e : List Byte) (name : CharPtr) : Option (List Byte) := do
  let (m, _) ← strlcpy (fun x => e.getD x 0) 4 name (nameMax + 1)
  some (m.load 0 entrySize)

/-- `e.inode_sector = sector`. -/
def setSector (e : List Byte) (sector : Nat) : List Byte :=
  leBytes sector ++ e.drop 4

/-- How a search of the table ended: whether the entry was found, the offset, and what is in
`e`. -/
structure Scan where
  found : Bool
  ofs : Nat
  e : List Byte

namespace Fs

/-- A loop over the entries from `ofs` on, with how many rounds it may take. -/
def scanEntries (dir : Nat) (stop : List Byte → Option Bool) :
    Nat → Fs → Nat → List Byte → Option (Fs × Scan)
  | 0, _, _, _ => none
  | left + 1, s, ofs, e => do
    let (s, bytes) ← s.inodeReadAt dir entrySize ofs
    let e := bytes ++ e.drop bytes.length
    if bytes.length = entrySize then
      if ← stop e then
        some (s, ⟨true, ofs, e⟩)
      else
        scanEntries dir stop left s (ofs + entrySize) e
    else
      some (s, ⟨false, ofs, e⟩)

/-- One round more than there are entries. -/
def rounds (s : Fs) (dir : Nat) : Nat :=
  match s.inode dir with
  | some i => i.data.length.toNat / entrySize + 1
  | none => 1

/-- The test in the loop of `lookup`. -/
def hasName (name : CharPtr) (e : List Byte) : Option Bool := do
  if entryInUse e then some ((← strcmp name (entryName e)) = 0) else some false

/-- `lookup`: the entry and its offset. -/
def lookup (s : Fs) (dir : Nat) (name : CharPtr) : Option (Fs × Option (List Byte × Nat)) := do
  let (s, r) ← scanEntries dir (hasName name) (s.rounds dir) s 0 (List.replicate entrySize 0)
  some (s, if r.found then some (r.e, r.ofs) else none)

/-- `dir_lookup`: the inode. -/
def dirLookup (s : Fs) (dir : Nat) (name : CharPtr) : Option (Fs × Option Nat) := do
  match ← s.lookup dir name with
  | (s, some (e, _)) => s.inodeOpen (entrySector e)
  | (s, none) => some (s, none)

/-- `dir_add`.  `junk` is what is on the stack where the entry is put together. -/
def dirAdd (s : Fs) (dir : Nat) (name : CharPtr) (inodeSector : Nat) (junk : Memory) :
    Option (Fs × Bool) := do
  let length ← strlen name
  if length = 0 ∨ length > nameMax then
    some (s, false)
  else
    match ← s.lookup dir name with
    | (s, some _) => some (s, false)
    | (s, none) =>
      let (s, slot) ← scanEntries dir (fun e => some !entryInUse e) (s.rounds dir) s 0
        (junk.load 0 entrySize)
      let e ← setName (setInUse slot.e true) name
      let (s, written) ← s.inodeWriteAt dir (setSector e inodeSector) entrySize slot.ofs
      some (s, written = entrySize)

/-- `dir_remove`. -/
def dirRemove (s : Fs) (dir : Nat) (name : CharPtr) : Option (Fs × Bool) := do
  match ← s.lookup dir name with
  | (s, none) => some (s, false)
  | (s, some (e, ofs)) =>
    match ← s.inodeOpen (entrySector e) with
    | (s, none) => some (s, false)
    | (s, some inode) =>
      let (s, written) ← s.inodeWriteAt dir (setInUse e false) entrySize ofs
      if written ≠ entrySize then
        some (← s.inodeClose inode, false)
      else
        let s ← s.inodeRemove inode
        some (← s.inodeClose inode, true)

/-- `dir_readdir` of a directory with the given position: the new position, and the name. -/
def dirReaddir (s : Fs) (dir pos : Nat) : Option (Fs × Nat × Option (List Byte)) := do
  let (s, r) ← scanEntries dir (fun e => some (entryInUse e)) (s.rounds dir) s pos
    (List.replicate entrySize 0)
  if r.found then
    let (m, _) ← strlcpy (fun _ => 0) 0 (entryName r.e) (nameMax + 1)
    some (s, r.ofs + entrySize, some (string (m.load 0 (nameMax + 1))))
  else
    some (s, r.ofs, none)

/-- `dir_open` of an inode: the directory has this inode, and position 0. -/
def dirOpen (s : Fs) (inode : Option Nat) : Option (Fs × Option Nat) := do
  let (s, ok) := s.malloc
  match inode with
  | none => some (s, none)
  | some a => if ok then some (s, some a) else some (← s.inodeClose a, none)

/-- `dir_open_root`. -/
def dirOpenRoot (s : Fs) : Option (Fs × Option Nat) := do
  let (s, a) ← s.inodeOpen 1
  s.dirOpen a

/-- `dir_close`. -/
def dirClose (s : Fs) (dir : Option Nat) : Option Fs :=
  match dir with
  | none => some s
  | some a => s.inodeClose a

end Fs

/-! ## Entries -/

section Entries
variable {e : List Byte} {name : CharPtr} {str : List Byte} {sector : Nat}

/-- The name in an entry. -/
def entryString (e : List Byte) : List Byte :=
  string (entryName e)

/-- A name that `dir_add` accepts. -/
def ValidName (str : List Byte) : Prop :=
  0 < str.length ∧ str.length ≤ nameMax

instance (str : List Byte) : Decidable (ValidName str) :=
  inferInstanceAs (Decidable (_ ∧ _))

/-- The test of `lookup` finds the entry with the name. -/
theorem hasName_eq (hname : 0 ∈ name) (he : entryInUse e = true → 0 ∈ entryName e) :
    Fs.hasName name e = some (decide (entryInUse e = true ∧ entryString e = string name)) := by
  rw [Fs.hasName]
  cases huse : entryInUse e with
  | false => rfl
  | true =>
    obtain ⟨str, rest, rfl, hstr⟩ := exists_string hname
    obtain ⟨str', rest', hname', hstr'⟩ := exists_string (he huse)
    obtain ⟨r, hr, hiff⟩ := strcmp_append rest rest' hstr hstr'
    rw [entryString, hname', string_append hstr, string_append hstr']
    simp only [if_true, hr, some_bind, true_and, Option.some.injEq, decide_eq_decide]
    exact hiff.trans eq_comm

theorem length_setInUse (he : e.length = entrySize) (value : Bool) :
    (setInUse e value).length = entrySize := by
  simp [setInUse, he, entrySize]

theorem entryInUse_setInUse (he : e.length = entrySize) (value : Bool) :
    entryInUse (setInUse e value) = value := by
  have hlength : (e.take 19).length = 19 := by simp [he, entrySize]
  rw [entryInUse, setInUse, getD_append_right _ _ _ _ (by omega), hlength]
  cases value <;> rfl

/-- **The entry that `dir_add` writes.** -/
structure NewEntry (e : List Byte) (str : List Byte) (sector : Nat) : Prop where
  length : e.length = entrySize
  inUse : entryInUse e = true
  sector : entrySector e = sector
  terminated : 0 ∈ entryName e
  name : entryString e = str

theorem newEntry_spec (rest : List Byte) (he : e.length = entrySize) (hstr : 0 ∉ str)
    (hvalid : ValidName str)
    (hsector : sector < unsignedSize) :
    ∃ e', setName (setInUse e true) (str ++ 0 :: rest) = some e' ∧
      NewEntry (setSector e' sector) str sector := by
  have hlen : str.length < nameMax + 1 := Nat.lt_succ_of_le hvalid.2
  have hcopy := strlcpy_append (fun x => (setInUse e true).getD x 0) 4 rest hstr hlen
  generalize hm : Memory.store (fun x => (setInUse e true).getD x 0) 4 (str ++ [0]) = m at hcopy
  have hmax : nameMax = 14 := rfl
  have hfour : (leBytes sector).length = 4 := rfl
  have huse : m 19 = 1 := by
    rw [← hm, Memory.store_of_lt (.inr (by rw [length_append, length_singleton]; omega))]
    have hlength : (e.take 19).length = 19 := by simp [he, entrySize]
    rw [setInUse, getD_append_right _ _ _ _ (by omega), hlength]
    rfl
  have hname : m.load 4 (str.length + 1) = str ++ [0] := by
    have h := Memory.load_store (fun x => (setInUse e true).getD x 0) 4 (str ++ [0])
    rwa [hm, length_append, length_singleton] at h
  have hsplit : m.load 4 16 = str ++ 0 :: m.load (4 + (str.length + 1)) (16 - (str.length + 1)) := by
    have hsum : 16 = (str.length + 1) + (16 - (str.length + 1)) := by
      omega
    rw [hsum, Memory.load_add, hname, append_assoc, ← hsum]
    rfl
  have hdrop : (m.load 0 entrySize).drop 4 = m.load 4 16 := Memory.drop_load m 0 entrySize 4
  refine ⟨m.load 0 entrySize, ?_, ?_, ?_, ?_, ?_, ?_⟩
  · rw [setName, hcopy]
    rfl
  · rw [setSector, hdrop, length_append, Memory.length_load]
    rfl
  · rw [entryInUse, setSector, hdrop, getD_append_right _ _ _ _ (hfour ▸ by decide)]
    have hget : (m.load 4 16).getD (19 - (leBytes sector).length) 0 = m 19 := rfl
    rw [hget, huse]
    decide
  · rw [entrySector, setSector, leWord_leBytes hsector]
  · rw [entryName, setSector, drop_left' hfour, hdrop, hsplit]
    exact mem_append_right _ mem_cons_self
  · rw [entryString, entryName, setSector, drop_left' hfour, hdrop, hsplit, string_append hstr]

end Entries

/-! ## Tables of entries -/

/-- The entry with the number `k` of the directory whose inode is in sector `n`. -/
def entryAt (d : Device) (n k : Nat) : List Byte :=
  d.bytes.load ((inodeAt d n).at (entrySize * k)) entrySize

/-- The device with another entry. -/
def putEntry (d : Device) (n k : Nat) (e : List Byte) : Device :=
  { d with bytes := d.bytes.store ((inodeAt d n).at (entrySize * k)) e }

section Tables
variable {d d' : Device} {n c k j : Nat} {e : List Byte} {P : Nat → Prop}

theorem length_entryAt (d : Device) (n k : Nat) : (entryAt d n k).length = entrySize :=
  Memory.length_load _ _ _

/-- The entries are inside the data. -/
theorem entry_fits (hlength : (inodeAt d n).length = (entrySize * c : Nat)) (hk : k < c) :
    (entrySize * k + entrySize : Nat) ≤ (inodeAt d n).length := by
  rw [hlength, ← Nat.mul_succ]
  exact Int.ofNat_le.mpr (Nat.mul_le_mul_left entrySize hk)

theorem entryAt_of_unchanged (h : Unchanged d d' P) (hd : OnDevice d (inodeAt d n))
    (hP : ∀ k, Area d n k → P k) (hlength : (inodeAt d n).length = (entrySize * c : Nat))
    (hk : k < c) : entryAt d' n k = entryAt d n k := by
  rw [entryAt, h.inodeAt (hP n (.inl rfl))]
  exact h.load hd (fun j hj => hP j (.inr hj)) (entry_fits hlength hk)

/-- Only the sectors of the table change. -/
theorem unchanged_putEntry (hd : OnDevice d (inodeAt d n)) (he : e.length = entrySize)
    (hlength : (inodeAt d n).length = (entrySize * c : Nat)) (hk : k < c) :
    Unchanged d (putEntry d n k e) fun k => ¬(inodeAt d n).Has k :=
  unchanged_store hd (by rw [he]; exact entry_fits hlength hk)

section
variable (hd : OnDevice d (inodeAt d n)) (hself : ¬(inodeAt d n).Has n) (he : e.length = entrySize)
  (hlength : (inodeAt d n).length = (entrySize * c : Nat)) (hk : k < c)
include hd hself he hlength hk

/-- **The entry that has been written.** -/
theorem entryAt_putEntry : entryAt (putEntry d n k e) n k = e := by
  have hload := Memory.load_store d.bytes ((inodeAt d n).at (entrySize * k)) e
  rw [he] at hload
  rw [entryAt, (unchanged_putEntry hd he hlength hk).inodeAt hself]
  exact hload

/-- **The other entries stay as they are.** -/
theorem entryAt_putEntry_of_ne (hj : j ≠ k) : entryAt (putEntry d n k e) n j = entryAt d n j := by
  rw [entryAt, (unchanged_putEntry hd he hlength hk).inodeAt hself]
  refine Memory.load_congr fun x hx => Memory.store_of_lt ?_
  rw [he, InodeDisk.at, InodeDisk.at, entrySize] at *
  omega

end

end Tables

/-! ## Searching a table -/

namespace Fs
section Scan
variable {s : Fs} {dir n c : Nat} {i : Inode}

/-- An inode that is open is a directory with `c` entries. -/
structure OpenDir (s : Fs) (dir n c : Nat) : Prop where
  inode : ∃ i, s.inode dir = some i ∧ i.data = inodeAt s.device n ∧ i.denyWriteCnt = 0
  onDevice : OnDevice s.device (inodeAt s.device n)
  length : (inodeAt s.device n).length = (entrySize * c : Nat)
  terminated : ∀ k, k < c → entryInUse (entryAt s.device n k) = true →
    0 ∈ entryName (entryAt s.device n k)

theorem OpenDir.withAnswers (h : OpenDir s dir n c) (answers : List Bool) :
    OpenDir { s with answers } dir n c :=
  ⟨h.inode, h.onDevice, h.length, h.terminated⟩

theorem OpenDir.rounds (h : OpenDir s dir n c) : s.rounds dir = c + 1 := by
  obtain ⟨i, hi, hdata, -⟩ := h.inode
  rw [Fs.rounds, hi]
  change i.data.length.toNat / entrySize + 1 = c + 1
  rw [hdata, h.length, Int.toNat_natCast, Nat.mul_div_cancel_left c (by decide)]

theorem available_entry {i : InodeDisk} {k : Nat} (hlength : i.length = (entrySize * c : Nat))
    (hk : k ≤ c) :
    i.available entrySize (entrySize * k) = if k < c then entrySize else 0 := by
  rw [InodeDisk.available, hlength]
  unfold entrySize
  split <;> omega

/-- An entry is read, or nothing. -/
theorem OpenDir.readEntry (h : OpenDir s dir n c) {k : Nat} (hk : k ≤ c) :
    s.inodeReadAt dir entrySize (entrySize * k) = some ({ s with answers := s.answers.tail },
      if s.answers.headD true = true ∧ k < c then entryAt s.device n k else []) := by
  obtain ⟨i, hi, hdata, -⟩ := h.inode
  obtain ⟨r, hcode, -, hall, hnone⟩ := inodeReadAt_spec hi (hdata ▸ h.onDevice) entrySize
    (entrySize * k)
  rw [hcode, hdata]
  rw [hdata, available_entry h.length hk] at hall
  cases hhead : s.answers.headD true with
  | false =>
    rw [hnone (by decide) hhead, if_neg (by simp)]
    rfl
  | true =>
    rw [hall hhead]
    by_cases hlt : k < c
    · rw [if_pos hlt, if_pos ⟨rfl, hlt⟩]
      rfl
    · rw [if_neg hlt, if_neg fun h => hlt h.2]
      rfl

/-- An entry is written, or nothing. -/
theorem OpenDir.writeEntry (h : OpenDir s dir n c) {k : Nat} (hk : k ≤ c) {e : List Byte}
    (he : e.length = entrySize) :
    s.inodeWriteAt dir e entrySize (entrySize * k) =
      if s.answers.headD true = true ∧ k < c then
        some ({ s with answers := s.answers.tail, device := putEntry s.device n k e }, entrySize)
      else some ({ s with answers := s.answers.tail }, 0) := by
  obtain ⟨i, hi, hdata, hdeny⟩ := h.inode
  have hbuffer : (entrySize : Int) ≤ e.length := by rw [he]
  obtain ⟨w, hcode, -, hall, hnone⟩ := inodeWriteAt_spec hi (hdata ▸ h.onDevice) hdeny hbuffer
    (entrySize * k)
  rw [hcode, hdata]
  rw [hdata, available_entry h.length hk] at hall
  have hzero : w = 0 → s.device.bytes.store ((inodeAt s.device n).at (entrySize * k)) (e.take w) =
      s.device.bytes := by
    rintro rfl
    exact Memory.store_nil _ _
  cases hhead : s.answers.headD true with
  | false =>
    have hw := hnone (by decide) hhead
    rw [hzero hw, hw, if_neg (by simp)]
  | true =>
    have hw := hall hhead
    by_cases hlt : k < c
    · rw [if_pos hlt] at hw
      rw [hw, ← he, take_length, he, if_pos ⟨rfl, hlt⟩]
      rfl
    · rw [if_neg hlt] at hw
      rw [hzero hw, hw, if_neg fun h => hlt h.2]

/-- **How a search from the entry `k` on ends**, with `e` in its buffer: at the entry `m`. -/
structure Scanned (s : Fs) (n c k : Nat) (p : List Byte → Bool) (e : List Byte)
    (answers : List Bool) (r : Scan) (m : Nat) : Prop where
  rest : answers = s.answers.drop (m - k + 1)
  ofs : r.ofs = entrySize * m
  le : k ≤ m
  le_cnt : m ≤ c
  passed : ∀ j, k ≤ j → j < m →
    p (entryAt s.device n j) = false ∧ s.answers.getD (j - k) true = true
  length : r.e.length = entrySize
  found : r.found = true → m < c ∧ p (entryAt s.device n m) = true ∧
    r.e = entryAt s.device n m ∧ s.answers.getD (m - k) true = true
  /-- Nothing stops it but the end of the table, where there is memory. -/
  short : r.found = false → m < c → s.answers.getD (m - k) true = false
  /-- The buffer then has the entry that has been read last. -/
  buffer : r.found = false → r.e = if m = k then e else entryAt s.device n (m - 1)

/-- **A search through a table**, for an entry with the property `p`. -/
theorem OpenDir.scanEntries (h : OpenDir s dir n c) (stop : List Byte → Option Bool)
    (p : List Byte → Bool)
    (hstop : ∀ j, j < c → stop (entryAt s.device n j) = some (p (entryAt s.device n j))) {k : Nat}
    (hk : k ≤ c) (left : Nat) (hleft : c - k < left) {e : List Byte} (he : e.length = entrySize) :
    ∃ answers r m, Fs.scanEntries dir stop left s (entrySize * k) e = some ({ s with answers }, r) ∧
      Scanned s n c k p e answers r m := by
  induction left generalizing s k e with
  | zero => exact absurd hleft (Nat.not_lt_zero _)
  | succ left ih =>
    have hhead : s.answers.getD (k - k) true = s.answers.headD true := by
      rw [Nat.sub_self, headD_eq_head?_getD, getD_eq_getElem?_getD, head?_eq_getElem?]
    have hrest : s.answers.tail = s.answers.drop (k - k + 1) := by
      rw [Nat.sub_self, drop_one]
    have hnone : ∀ j, k ≤ j → j < k →
        p (entryAt s.device n j) = false ∧ s.answers.getD (j - k) true = true :=
      fun j hj hj' => absurd hj' (Nat.not_lt.mpr hj)
    rw [Fs.scanEntries, h.readEntry hk]
    simp only [some_bind]
    by_cases hread : s.answers.headD true = true ∧ k < c
    · rw [if_pos hread, length_entryAt, if_pos rfl, drop_of_length_le (Nat.le_of_eq he),
        append_nil, hstop k hread.2, some_bind]
      cases hp : p (entryAt s.device n k) with
      | true =>
        exact ⟨s.answers.tail, ⟨true, entrySize * k, entryAt s.device n k⟩, k, rfl, hrest, rfl,
          Nat.le_refl k, hk, hnone, length_entryAt _ _ _,
          fun _ => ⟨hread.2, hp, rfl, hhead.trans hread.1⟩, (nomatch ·), (nomatch ·)⟩
      | false =>
        obtain ⟨answers, r, m, hcode, hr⟩ := ih (h.withAnswers s.answers.tail) hstop hread.2
          (by omega) (length_entryAt s.device n k)
        -- The answer `j` of the rest is the answer `j + 1` here.
        have hle := hr.le
        have hnext : ∀ j, k + 1 ≤ j →
            s.answers.tail.getD (j - (k + 1)) true = s.answers.getD (j - k) true := by
          intro j hj
          rw [getD_eq_getElem?_getD, getD_eq_getElem?_getD, getElem?_tail]
          congr 2
          omega
        refine ⟨answers, r, m, ?_, ?_, hr.ofs, Nat.le_of_succ_le hr.le, hr.le_cnt,
          fun j hj hj' => ?_, hr.length, fun hf => ?_, fun hf hm => ?_, fun hf => ?_⟩
        · rw [if_neg Bool.false_ne_true, ← Nat.mul_succ]
          exact hcode
        · have hsub : m - k + 1 = m - (k + 1) + 1 + 1 := by omega
          rw [hr.rest, drop_tail, hsub]
        · rcases Nat.eq_or_lt_of_le hj with rfl | hlt
          · exact ⟨hp, hhead.trans hread.1⟩
          · exact (hr.passed j hlt hj').imp_right (hnext j hlt).symm.trans
        · obtain ⟨hm, hpm, he, hgranted⟩ := hr.found hf
          exact ⟨hm, hpm, he, (hnext m hle).symm.trans hgranted⟩
        · exact (hnext m hle).symm.trans (hr.short hf hm)
        · rw [hr.buffer hf, if_neg (by omega : m ≠ k)]
          by_cases hm : m = k + 1
          · rw [if_pos hm, hm, Nat.add_sub_cancel]
          · rw [if_neg hm]
    · rw [if_neg hread]
      refine ⟨s.answers.tail, ⟨false, entrySize * k, e⟩, k, rfl, hrest, rfl, Nat.le_refl k, hk,
        hnone, he, (nomatch ·), fun _ hlt => ?_, fun _ => by rw [if_pos rfl]⟩
      rw [hhead]
      exact Bool.eq_false_iff.mpr fun hgranted => hread ⟨hgranted, hlt⟩

/-- The entry with the number `k` is in use, for the name. -/
def Names (d : Device) (n k : Nat) (str : List Byte) : Prop :=
  entryInUse (entryAt d n k) = true ∧ entryString (entryAt d n k) = str

instance (d : Device) (n k : Nat) (str : List Byte) : Decidable (Names d n k str) :=
  inferInstanceAs (Decidable (_ ∧ _))

/-- **Where a search of `c` entries stops**, with these answers to the allocations: at the first
entry that it looks for or that cannot be read. -/
structure StopsAt (stop : Nat → Prop) (answers : List Bool) (c m : Nat) : Prop where
  le : m ≤ c
  passed : ∀ j, j < m → ¬stop j ∧ answers.getD j true = true
  stopped : m < c → answers.getD m true = true → stop m

/-- A search stops at one entry only. -/
theorem StopsAt.unique {stop : Nat → Prop} {answers : List Bool} {m m' : Nat}
    (h : StopsAt stop answers c m) (h' : StopsAt stop answers c m') : m = m' := by
  rcases Nat.lt_trichotomy m m' with hlt | heq | hgt
  · obtain ⟨hpass, hgranted⟩ := h'.passed m hlt
    exact absurd (h.stopped (Nat.lt_of_lt_of_le hlt h'.le) hgranted) hpass
  · exact heq
  · obtain ⟨hpass, hgranted⟩ := h.passed m' hgt
    exact absurd (h'.stopped (Nat.lt_of_lt_of_le hgt h.le) hgranted) hpass

/-- Where there is memory, only the entry itself stops a search. -/
theorem StopsAt.of_nil {stop : Nat → Prop} {m k : Nat} (h : StopsAt stop [] c m) (hk : k < c)
    (hstop : stop k) : m < c ∧ stop m := by
  have hle : m ≤ k := Nat.le_of_not_lt fun hlt => (h.passed k hlt).1 hstop
  have hlt : m < c := Nat.lt_of_le_of_lt hle hk
  exact ⟨hlt, h.stopped hlt rfl⟩

/-- A search from the first entry on stops where its code does. -/
theorem Scanned.stopsAt {p : List Byte → Bool} {e : List Byte} {answers : List Bool} {r : Scan}
    {m : Nat} (h : Scanned s n c 0 p e answers r m) :
    StopsAt (fun j => p (entryAt s.device n j) = true) s.answers c m ∧
      (r.found = true ↔ m < c ∧ s.answers.getD m true = true) := by
  refine ⟨⟨h.le_cnt, fun j hj => ?_, fun hm hgranted => ?_⟩, fun hf => ?_, fun ⟨hm, hgranted⟩ => ?_⟩
  · obtain ⟨hp, hgranted⟩ := h.passed j (Nat.zero_le j) hj
    exact ⟨Bool.eq_false_iff.mp hp, hgranted⟩
  · cases hf : r.found with
    | true => exact (h.found hf).2.1
    | false => exact absurd (hgranted.symm.trans (h.short hf hm)) (by decide)
  · obtain ⟨hm, -, -, hgranted⟩ := h.found hf
    exact ⟨hm, hgranted⟩
  · cases hf : r.found with
    | true => rfl
    | false => exact absurd (hgranted.symm.trans (h.short hf hm)) (by decide)

variable {name : CharPtr}

/-- **`lookup`**: it finds the entry where its search stops, if that can be read. -/
theorem OpenDir.lookup_stopsAt (h : OpenDir s dir n c) (hname : 0 ∈ name) :
    ∃ m, StopsAt (fun k => Names s.device n k (string name)) s.answers c m ∧
      s.lookup dir name = some ({ s with answers := s.answers.drop (m + 1) },
        if m < c ∧ s.answers.getD m true = true then some (entryAt s.device n m, entrySize * m)
        else none) := by
  obtain ⟨answers, r, m, hcode, hr⟩ := h.scanEntries (hasName name)
    (fun e => decide (entryInUse e = true ∧ entryString e = string name))
    (fun j hj => hasName_eq hname (h.terminated j hj)) (Nat.zero_le c) (c + 1) (by omega)
    (e := List.replicate entrySize 0) rfl
  rw [Nat.mul_zero] at hcode
  obtain ⟨hstops, hfound⟩ := hr.stopsAt
  simp only [decide_eq_true_eq] at hstops
  refine ⟨m, hstops, ?_⟩
  have hrest : answers = s.answers.drop (m + 1) := hr.rest
  rw [Fs.lookup, h.rounds, hcode, ← hrest]
  by_cases hf : r.found = true
  · obtain ⟨-, -, he, -⟩ := hr.found hf
    rw [if_pos (hfound.mp hf), ← he, ← hr.ofs]
    simp only [some_bind, hf, if_true]
  · rw [if_neg fun h => hf (hfound.mpr h)]
    simp only [some_bind, hf, if_false, Bool.false_eq_true]

/-- **What `lookup` finds.** -/
structure LookedUp (s : Fs) (n c : Nat) (str : List Byte) (answers : List Bool)
    (r : Option (List Byte × Nat)) : Prop where
  answers : s.answers = [] → answers = []
  found : ∀ e ofs, r = some (e, ofs) →
    ∃ k, k < c ∧ e = entryAt s.device n k ∧ ofs = entrySize * k ∧ Names s.device n k str
  missed : r = none → s.answers = [] → ∀ k, k < c → ¬Names s.device n k str

theorem OpenDir.lookup (h : OpenDir s dir n c) (hname : 0 ∈ name) :
    ∃ answers r, s.lookup dir name = some ({ s with answers }, r) ∧
      LookedUp s n c (string name) answers r := by
  obtain ⟨m, hm, hcode⟩ := h.lookup_stopsAt hname
  refine ⟨_, _, hcode, fun hnil => by rw [hnil, drop_nil], fun e ofs heq => ?_,
    fun heq hnil k hk hnames => ?_⟩
  · split at heq
    · next hfound =>
      rw [Option.some.injEq, Prod.mk.injEq] at heq
      exact ⟨m, hfound.1, heq.1.symm, heq.2.symm, hm.stopped hfound.1 hfound.2⟩
    · cases heq
  · rw [hnil] at hm heq
    rw [if_pos ⟨(hm.of_nil hk hnames).1, rfl⟩] at heq
    cases heq

/-- The entry that `dir_add` makes out of what is in the buffer. -/
def entryFor (e : List Byte) (name : CharPtr) (sector : Nat) : Option (List Byte) := do
  some (setSector (← setName (setInUse e true) name) sector)

/-- What is in the buffer of `dir_add` before the entry with the number `k` is read. -/
def bufferAt (d : Device) (n : Nat) (junk : Memory) : Nat → List Byte
  | 0 => junk.load 0 entrySize
  | k + 1 => entryAt d n k

/-- **The entry that `dir_add` takes for the name** is the one with the number `k`.  Its `lookup`
stops at the entry `i`, where there is no memory to read it or the table ends. -/
structure Takes (s : Fs) (n c : Nat) (str : List Byte) (i k : Nat) : Prop where
  lookup : StopsAt (fun j => Names s.device n j str) s.answers c i
  missed : ¬(i < c ∧ s.answers.getD i true = true)
  search : StopsAt (fun j => entryInUse (entryAt s.device n j) = false) (s.answers.drop (i + 1)) c k
  lt : k < c
  /-- There is memory to write it. -/
  written : s.answers.getD (i + k + 2) true = true

/-- **`dir_add` writes the entry it takes**, or nothing. -/
theorem OpenDir.dirAdd_cases (h : OpenDir s dir n c) (hname : 0 ∈ name) {sector : Nat}
    (hsector : sector < unsignedSize) (junk : Memory) :
    (∃ a, s.dirAdd dir name sector junk = some ({ s with answers := s.answers.drop a }, false) ∧
      ¬(ValidName (string name) ∧ ∃ i k, Takes s n c (string name) i k)) ∨
    ∃ a i k e, ValidName (string name) ∧ Takes s n c (string name) i k ∧
      NewEntry e (string name) sector ∧
      (entryInUse (entryAt s.device n k) = true →
        entryFor (bufferAt s.device n junk k) name sector = some e) ∧
      s.dirAdd dir name sector junk = some ({ s with
        answers := s.answers.drop a, device := putEntry s.device n k e }, true) := by
  obtain ⟨str, rest, rfl, hstr⟩ := exists_string hname
  obtain ⟨i, hi, hlookup⟩ := h.lookup_stopsAt hname
  rw [string_append hstr] at hi ⊢
  simp only [Fs.dirAdd, strlen_append hstr, some_bind]
  by_cases hinvalid : str.length = 0 ∨ str.length > nameMax
  · rw [if_pos hinvalid]
    refine .inl ⟨0, rfl, fun ⟨hvalid, _⟩ => ?_⟩
    have h1 := hvalid.1
    have h2 := hvalid.2
    omega
  have hvalid : ValidName str := ⟨by omega, by omega⟩
  rw [if_neg hinvalid, hlookup]
  by_cases hfound : i < c ∧ s.answers.getD i true = true
  · rw [if_pos hfound]
    refine .inl ⟨i + 1, rfl, ?_⟩
    rintro ⟨-, i', k, htakes⟩
    rw [htakes.lookup.unique hi] at htakes
    exact htakes.missed hfound
  rw [if_neg hfound]
  have h₁ := h.withAnswers (s.answers.drop (i + 1))
  obtain ⟨answers₂, slot, k, hscan, hslot⟩ := h₁.scanEntries (fun e => some !entryInUse e)
    (fun e => !entryInUse e) (fun _ _ => rfl) (Nat.zero_le c) (c + 1) (by omega)
    (Memory.length_load junk 0 entrySize)
  obtain ⟨hsearch, hfree⟩ := hslot.stopsAt
  simp only [Bool.not_eq_true'] at hsearch
  obtain ⟨e, hset, hnew⟩ := newEntry_spec rest hslot.length hstr hvalid hsector
  have hwrite := (h₁.withAnswers answers₂).writeEntry hslot.le_cnt hnew.length
  have hrest : answers₂ = s.answers.drop (i + k + 2) := by
    rw [hslot.rest, drop_drop]
    congr 1
    omega
  have hhead : answers₂.headD true = s.answers.getD (i + k + 2) true := by
    rw [hrest, headD_eq_head?_getD, head?_drop, getD_eq_getElem?_getD]
  have htail : answers₂.tail = s.answers.drop (i + k + 3) := by
    rw [hrest, tail_drop]
  rw [Nat.mul_zero] at hscan
  simp only [some_bind, h₁.rounds, hscan, hset, hslot.ofs, hwrite]
  by_cases hdone : answers₂.headD true = true ∧ k < c
  · refine .inr ⟨i + k + 3, i, k, setSector e sector, hvalid,
      ⟨hi, hfound, hsearch, hdone.2, hhead.symm.trans hdone.1⟩, hnew, fun huse => ?_, ?_⟩
    · -- An entry in use has not been read: the buffer still has the one before.
      have hmissed : slot.found = false := by
        by_contra hf
        have hp := (hslot.found (Bool.eq_true_of_not_eq_false hf)).2.1
        rw [Bool.not_eq_true'] at hp
        exact absurd (huse.symm.trans hp) (by decide)
      have hbuffer : slot.e = bufferAt s.device n junk k := by
        rw [hslot.buffer hmissed]
        cases k <;> rfl
      rw [entryFor, ← hbuffer, hset]
      rfl
    · rw [if_pos hdone, htail]
      rfl
  · refine .inl ⟨i + k + 3, by rw [if_neg hdone, htail]; rfl, ?_⟩
    rintro ⟨-, i', k', htakes⟩
    obtain rfl := htakes.lookup.unique hi
    obtain rfl := htakes.search.unique hsearch
    exact hdone ⟨hhead.trans htakes.written, htakes.lt⟩

/-- **What `dir_add` does**: it writes one entry, or nothing. -/
structure Added (s : Fs) (n c : Nat) (str : List Byte) (sector : Nat) (answers : List Bool)
    (device : Device) (ok : Bool) : Prop where
  answers : s.answers = [] → answers = []
  failed : ok = false → device = s.device
  done : ok = true → ValidName str ∧ ∃ k e, k < c ∧ NewEntry e str sector ∧
    device = putEntry s.device n k e ∧
    (s.answers = [] → entryInUse (entryAt s.device n k) = false)
  /-- When it succeeds, where there is memory. -/
  success : s.answers = [] → (ok = true ↔ ValidName str ∧ (∀ k, k < c → ¬Names s.device n k str) ∧
    ∃ k, k < c ∧ entryInUse (entryAt s.device n k) = false)

/-- An entry is taken where there is memory: a free one, for a name that is new. -/
theorem exists_takes_iff {str : List Byte} (hnil : s.answers = []) :
    (∃ i k, Takes s n c str i k) ↔ (∀ k, k < c → ¬Names s.device n k str) ∧
      ∃ k, k < c ∧ entryInUse (entryAt s.device n k) = false := by
  constructor
  · rintro ⟨i, k, htakes⟩
    have hlookup := htakes.lookup
    have hmissed := htakes.missed
    have hsearch := htakes.search
    rw [hnil] at hlookup hmissed hsearch
    refine ⟨fun j hj hnames => hmissed ⟨(hlookup.of_nil hj hnames).1, rfl⟩, k, htakes.lt, ?_⟩
    exact hsearch.stopped htakes.lt (by rw [drop_nil]; rfl)
  · rintro ⟨hnew, hfree⟩
    classical
    obtain ⟨hlt, hstop⟩ := Nat.find_spec hfree
    refine ⟨c, Nat.find hfree, ⟨Nat.le_refl c, fun j hj => ⟨hnew j hj, by rw [hnil]; rfl⟩,
      fun h => absurd h (Nat.lt_irrefl c)⟩, fun h => Nat.lt_irrefl c h.1,
      ⟨Nat.le_of_lt hlt, fun j hj => ⟨fun huse => ?_, ?_⟩, fun _ _ => hstop⟩, hlt, by rw [hnil]; rfl⟩
    · exact Nat.find_min hfree hj ⟨Nat.lt_trans hj hlt, huse⟩
    · rw [hnil, drop_nil]
      rfl

/-- **`dir_add`.** -/
theorem OpenDir.dirAdd (h : OpenDir s dir n c) (hname : 0 ∈ name) {sector : Nat}
    (hsector : sector < unsignedSize) (junk : Memory) :
    ∃ answers device ok, s.dirAdd dir name sector junk = some ({ s with answers, device }, ok) ∧
      Added s n c (string name) sector answers device ok := by
  rcases h.dirAdd_cases hname hsector junk with
    ⟨a, hcode, hnot⟩ | ⟨a, i, k, e, hvalid, htakes, hnew, -, hcode⟩
  · refine ⟨_, s.device, false, hcode, fun hnil => by rw [hnil, drop_nil], fun _ => rfl,
      (nomatch ·), fun hnil => ⟨(nomatch ·), fun hok => absurd ?_ hnot⟩⟩
    exact ⟨hok.1, (exists_takes_iff hnil).mpr hok.2⟩
  · refine ⟨_, _, true, hcode, fun hnil => by rw [hnil, drop_nil], (nomatch ·),
      fun _ => ⟨hvalid, k, e, htakes.lt, hnew, rfl, fun hnil => ?_⟩,
      fun hnil => ⟨fun _ => ⟨hvalid, (exists_takes_iff hnil).mp ⟨i, k, htakes⟩⟩, fun _ => rfl⟩⟩
    exact htakes.search.stopped htakes.lt (by rw [hnil, drop_nil]; rfl)

end Scan
end Fs

/-! ## Names -/

/-- Different entries of a table have different names. -/
def NamesApart (d : Device) (n c : Nat) : Prop :=
  ∀ j, j < c → ∀ k, k < c → ∀ str, Fs.Names d n j str → Fs.Names d n k str → j = k

section Names
variable {d d' : Device} {n c k sector : Nat} {str : List Byte}

theorem NamesApart.congr (h : NamesApart d n c)
    (hentry : ∀ k, k < c → entryAt d' n k = entryAt d n k) : NamesApart d' n c := by
  intro j hj k hk str hnames hnames'
  rw [Fs.Names, hentry j hj] at hnames
  rw [Fs.Names, hentry k hk] at hnames'
  exact h j hj k hk str hnames hnames'

/-- An entry is made for a name that is new. -/
theorem NamesApart.add (h : NamesApart d n c) (hnew : NewEntry (entryAt d' n k) str sector)
    (hother : ∀ j, j < c → j ≠ k → entryAt d' n j = entryAt d n j)
    (hfresh : ∀ j, j < c → ¬Fs.Names d n j str) : NamesApart d' n c := by
  have hold : ∀ j, j < c → j ≠ k → ∀ str', Fs.Names d' n j str' → Fs.Names d n j str' := by
    intro j hj hne str' hnames
    rwa [Fs.Names, hother j hj hne] at hnames
  have hname : ∀ str', Fs.Names d' n k str' → str' = str := fun str' hnames =>
    hnames.2.symm.trans hnew.name
  intro i hi j hj str' hi' hj'
  by_cases hik : i = k
  · subst hik
    by_contra hne
    rw [hname str' hi'] at hj'
    exact hfresh j hj (hold j hj (Ne.symm hne) str hj')
  · by_cases hjk : j = k
    · subst hjk
      rw [hname str' hj'] at hi'
      exact absurd (hold i hi hik str hi') (hfresh i hi)
    · exact h i hi j hj str' (hold i hi hik str' hi') (hold j hj hjk str' hj')

/-- An entry is cleared. -/
theorem NamesApart.remove (h : NamesApart d n c) (hfree : entryInUse (entryAt d' n k) = false)
    (hother : ∀ j, j < c → j ≠ k → entryAt d' n j = entryAt d n j) : NamesApart d' n c := by
  have hold : ∀ j, j < c → ∀ str, Fs.Names d' n j str → Fs.Names d n j str := by
    intro j hj str hnames
    by_cases hjk : j = k
    · subst hjk
      exact absurd (hnames.1.symm.trans hfree) (by decide)
    · rwa [Fs.Names, hother j hj hjk] at hnames
  intro i hi j hj str hi' hj'
  exact h i hi j hj str (hold i hi str hi') (hold j hj str hj')

/-- The sector that a name stands for. -/
def sectorOf (d : Device) (n c : Nat) (str : List Byte) : Option Nat :=
  ((List.range c).find? fun k => Fs.Names d n k str).map fun k => entrySector (entryAt d n k)

theorem sectorOf_of_names (h : NamesApart d n c) (hk : k < c) (hnames : Fs.Names d n k str) :
    sectorOf d n c str = some (entrySector (entryAt d n k)) := by
  rw [sectorOf]
  cases hfind : (List.range c).find? fun k => Fs.Names d n k str with
  | none =>
    have hnone := find?_eq_none.mp hfind k (mem_range.mpr hk)
    exact absurd (decide_eq_true hnames) hnone
  | some j =>
    have hj := mem_range.mp (mem_of_find?_eq_some hfind)
    have hnames' := find?_some hfind
    obtain rfl := h j hj k hk str (of_decide_eq_true hnames') hnames
    rfl

theorem sectorOf_eq_none : sectorOf d n c str = none ↔ ∀ k, k < c → ¬Fs.Names d n k str := by
  rw [sectorOf, Option.map_eq_none_iff, find?_eq_none]
  simp

end Names

/-! ## Directories of a volume -/

/-- An entry in use of the directory in sector `n`, for another inode of the volume. -/
structure EntryFor (nodes : Set Nat) (n : Nat) (e : List Byte) : Prop where
  terminated : 0 ∈ entryName e
  valid : ValidName (entryString e)
  node : entrySector e ∈ nodes
  ne_zero : entrySector e ≠ 0
  ne_dir : entrySector e ≠ n

/-- **A directory in order**: with `c` entries, in sector `n`.  The entries in use are for
different inodes of the volume, and none is for an inode that has been removed. -/
structure Directory (s : Fs) (nodes : Set Nat) (n c : Nat) : Prop where
  node : n ∈ nodes
  ne_zero : n ≠ 0
  length : (inodeAt s.device n).length = (entrySize * c : Nat)
  entry : ∀ k, k < c → entryInUse (entryAt s.device n k) = true →
    EntryFor nodes n (entryAt s.device n k)
  apart : ∀ j, j < c → ∀ k, k < c → entryInUse (entryAt s.device n j) = true →
    entryInUse (entryAt s.device n k) = true →
    entrySector (entryAt s.device n j) = entrySector (entryAt s.device n k) → j = k
  removed : ∀ i ∈ s.inodes, i.removed = true → i.sector ≠ 0 ∧ i.sector ≠ n ∧
    ∀ k, k < c → entryInUse (entryAt s.device n k) = true →
      entrySector (entryAt s.device n k) ≠ i.sector

/-- A sector for which there is no entry, and that may get one. -/
structure Unbound (s : Fs) (nodes : Set Nat) (n c m : Nat) : Prop where
  node : m ∈ nodes
  ne_zero : m ≠ 0
  ne_dir : m ≠ n
  free : ∀ k, k < c → entryInUse (entryAt s.device n k) = true → entrySector (entryAt s.device n k) ≠ m
  kept : ∀ i ∈ s.inodes, i.removed = true → i.sector ≠ m

section Directories
variable {s s' : Fs} {files : List File} {nodes nodes' : Set Nat} {held : List Nat}
  {dir n c m : Nat} {i : Inode} {str : List Byte} {name : CharPtr}

theorem Directory.same (h : Directory s nodes n c) (hdevice : s'.device = s.device)
    (hinodes : s'.inodes = s.inodes) : Directory s' nodes n c :=
  ⟨h.node, h.ne_zero, hdevice ▸ h.length, hdevice ▸ h.entry, hdevice ▸ h.apart,
    hdevice ▸ hinodes ▸ h.removed⟩

/-- Nothing about the directory changes. -/
theorem Directory.congr (h : Directory s nodes n c) (hv : Owned s.device s.freeMap nodes)
    {P : Nat → Prop} (hsame : Unchanged s.device s'.device P) (hP : ∀ k, Area s.device n k → P k)
    (hn : n ∈ nodes')
    (hnodes : ∀ k, k < c → entryInUse (entryAt s.device n k) = true →
      entrySector (entryAt s.device n k) ∈ nodes')
    (hremoved : ∀ i ∈ s'.inodes, i.removed = true →
      ∃ j ∈ s.inodes, j.sector = i.sector ∧ j.removed = true) : Directory s' nodes' n c := by
  have hentry : ∀ k, k < c → entryAt s'.device n k = entryAt s.device n k := fun k hk =>
    entryAt_of_unchanged hsame (hv.onDevice n h.node) hP h.length hk
  refine ⟨hn, h.ne_zero, ?_, fun k hk => ?_, fun j hj k hk => ?_, fun i hi hrem => ?_⟩
  · rw [hsame.inodeAt (hP n (.inl rfl))]
    exact h.length
  · rw [hentry k hk]
    intro huse
    have he := h.entry k hk huse
    exact ⟨he.terminated, he.valid, hnodes k hk huse, he.ne_zero, he.ne_dir⟩
  · rw [hentry j hj, hentry k hk]
    exact h.apart j hj k hk
  · obtain ⟨j, hj, hsector, hrem'⟩ := hremoved i hi hrem
    obtain ⟨h0, hne, hfree⟩ := h.removed j hj hrem'
    rw [hsector] at h0 hne hfree
    refine ⟨h0, hne, fun k hk => ?_⟩
    rw [hentry k hk]
    exact hfree k hk

section
variable (h : Directory s nodes n c) (hv : Volume s files nodes held)
include h hv

theorem Directory.openDir (hi : s.inode dir = some i) (hsector : i.sector = n) :
    Fs.OpenDir s dir n c := by
  have hmem := Objects.mem_of_get hi
  exact ⟨⟨i, hi, hsector ▸ (hv.opened i hmem).2, hv.denyWriteCnt hmem⟩,
    hv.owned.onDevice n h.node, h.length, fun k hk huse => (h.entry k hk huse).terminated⟩

/-- **An entry is written**: it is free, or for a sector that has no entry yet. -/
theorem Directory.putEntry {k : Nat} (hk : k < c) {e : List Byte} (he : e.length = entrySize)
    (answers : List Bool)
    (hentry : entryInUse e = true →
      0 ∈ entryName e ∧ ValidName (entryString e) ∧ Unbound s nodes n c (entrySector e)) :
    let device := Filesys.putEntry s.device n k e
    Volume { s with device, answers } files nodes held ∧ Directory { s with device, answers } nodes n c ∧
      Unchanged s.device device (fun k => ¬(inodeAt s.device n).Has k) ∧ entryAt device n k = e ∧
      ∀ j, j ≠ k → entryAt device n j = entryAt s.device n j := by
  have hd := hv.owned.onDevice n h.node
  have hnode := hv.owned.self n h.node
  have hsame := unchanged_putEntry hd he h.length hk
  have hself := entryAt_putEntry hd hnode he h.length hk
  have hother : ∀ j, j ≠ k → entryAt (Filesys.putEntry s.device n k e) n j = entryAt s.device n j :=
    fun j hj => entryAt_putEntry_of_ne hd hnode he h.length hk hj
  refine ⟨hv.withDevice hsame (fun m hm => hv.owned.not_has hm h.node) answers, ?_, hsame, hself,
    hother⟩
  generalize Filesys.putEntry s.device n k e = d at *
  refine ⟨h.node, h.ne_zero, ?_, fun j hj => ?_, fun j hj j' hj' => ?_, fun i hi hrem => ?_⟩
  · change (inodeAt d n).length = _
    rw [hsame.inodeAt hnode]
    exact h.length
  · change entryInUse (entryAt d n j) = true → EntryFor nodes n (entryAt d n j)
    by_cases hjk : j = k
    · rw [hjk, hself]
      intro huse
      obtain ⟨hterm, hvalid, hm⟩ := hentry huse
      exact ⟨hterm, hvalid, hm.node, hm.ne_zero, hm.ne_dir⟩
    · rw [hother j hjk]
      exact h.entry j hj
  · change entryInUse (entryAt d n j) = true → entryInUse (entryAt d n j') = true →
      entrySector (entryAt d n j) = entrySector (entryAt d n j') → j = j'
    by_cases hjk : j = k
    · by_cases hjk' : j' = k
      · exact fun _ _ _ => hjk.trans hjk'.symm
      · rw [hjk, hself, hother j' hjk']
        exact fun huse huse' heq => absurd heq.symm ((hentry huse).2.2.free j' hj' huse')
    · by_cases hjk' : j' = k
      · rw [hjk', hself, hother j hjk]
        exact fun huse huse' heq => absurd heq ((hentry huse').2.2.free j hj huse)
      · rw [hother j hjk, hother j' hjk']
        exact h.apart j hj j' hj'
  · obtain ⟨h0, hne, hfree⟩ := h.removed i hi hrem
    refine ⟨h0, hne, fun j hj => ?_⟩
    by_cases hjk : j = k
    · rw [hjk, hself]
      exact fun huse => Ne.symm ((hentry huse).2.2.kept i hi hrem)
    · rw [hother j hjk]
      exact hfree j hj

/-- **`dir_add` keeps the directory in order.** -/
theorem Directory.add (hm : Unbound s nodes n c m) {answers : List Bool} {device : Device}
    {ok : Bool} (hadded : Fs.Added s n c str m answers device ok) :
    Volume { s with device, answers } files nodes held ∧
      Directory { s with device, answers } nodes n c ∧
      Unchanged s.device device (fun k => ¬(inodeAt s.device n).Has k) := by
  cases hok : ok with
  | false =>
    obtain rfl := hadded.failed hok
    have hsame := Unchanged.refl s.device fun k => ¬(inodeAt s.device n).Has k
    exact ⟨hv.withDevice hsame (fun m hm => hv.owned.not_has hm h.node) answers,
      h.same rfl rfl, hsame⟩
  | true =>
    obtain ⟨hvalid, k, e, hk, hnew, rfl, -⟩ := hadded.done hok
    obtain ⟨hv', hdir, hsame, -⟩ := h.putEntry hv hk hnew.length answers fun _ =>
      ⟨hnew.terminated, hnew.name ▸ hvalid, hnew.sector ▸ hm⟩
    exact ⟨hv', hdir, hsame⟩

end

/-- **What `dir_lookup` does.** -/
structure Looked (s : Fs) (n c : Nat) (str : List Byte) (r : Option Nat) (s' : Fs) : Prop where
  files : s'.files = s.files
  device : s'.device = s.device
  freeMap : s'.freeMap = s.freeMap
  freeMapFile : s'.freeMapFile = s.freeMapFile
  answers : s.answers = [] → s'.answers = []
  kept : ∀ b i, s.inode b = some i → ∃ i', s'.inode b = some i' ∧ Fs.core i' = Fs.core i
  removed : ∀ i ∈ s'.inodes, i.removed = true → ∃ j ∈ s.inodes, j.sector = i.sector ∧
    j.removed = true
  found : ∀ a, r = some a → ∃ k i, k < c ∧ Fs.Names s.device n k str ∧ s'.inode a = some i ∧
    i.sector = entrySector (entryAt s.device n k)
  success : s.answers = [] → (∃ k, k < c ∧ Fs.Names s.device n k str) → r.isSome = true

/-- **`dir_lookup`.** -/
theorem Directory.dirLookup (h : Directory s nodes n c) (hv : Volume s files nodes held)
    (hi : s.inode dir = some i) (hsector : i.sector = n) (hname : 0 ∈ name) :
    ∃ s' r, s.dirLookup dir name = some (s', r) ∧ Volume s' files nodes (r.toList ++ held) ∧
      Directory s' nodes n c ∧ Looked s n c (string name) r s' := by
  obtain ⟨answers, r, hlookup, hr⟩ := (h.openDir hv hi hsector).lookup hname
  have hv₁ := hv.withAnswers answers
  have h₁ : Directory { s with answers } nodes n c := h.same rfl rfl
  rw [Fs.dirLookup, hlookup]
  cases r with
  | none =>
    refine ⟨_, none, rfl, hv₁, h₁, rfl, rfl, rfl, rfl, hr.answers, fun b j hj => ⟨j, hj, rfl⟩,
      fun j hj hrem => ⟨j, hj, rfl, hrem⟩, (fun _ h => nomatch h), fun hnil => ?_⟩
    rintro ⟨k, hk, hnames⟩
    exact absurd hnames (hr.missed rfl hnil k hk)
  | some found =>
    obtain ⟨e, ofs⟩ := found
    obtain ⟨k, hk, rfl, rfl, hnames⟩ := hr.found e ofs rfl
    obtain ⟨s', r, hcode, hv', hopened⟩ := hv₁.inodeOpen (h.entry k hk hnames.1).node
    refine ⟨s', r, hcode, hv', ?_, hopened.files, hopened.device, hopened.freeMap,
      hopened.freeMapFile, fun hs => hopened.answers (hr.answers hs), hopened.kept,
      hopened.removed, ?_, fun hs _ => hopened.success (hr.answers hs)⟩
    · refine h₁.congr hv₁.owned (P := fun _ => True) ⟨by rw [hopened.device], ?_⟩ (fun _ _ => trivial)
        h.node (fun j hj huse => (h.entry j hj huse).node) hopened.removed
      exact fun x _ => by rw [hopened.device]
    · intro a ha
      obtain ⟨i', hi', hsector'⟩ := hopened.inode a ha
      exact ⟨k, i', hk, hnames, hi', hsector'⟩

/-- **What `dir_remove` does.** -/
structure DirRemoved (s : Fs) (nodes : Set Nat) (held : List Nat) (dir n c : Nat) (str : List Byte)
    (ok : Bool) (s' : Fs) (nodes' : Set Nat) (held' : List Nat) : Prop where
  files : s'.files = s.files
  freeMapFile : s'.freeMapFile = s.freeMapFile
  answers : s.answers = [] → s'.answers = []
  saved : s.answers = [] → Saved s.device s.freeMap → Saved s'.device s'.freeMap
  sub : nodes' ⊆ nodes
  opened : ∃ i, s'.inode dir = some i ∧ i.sector = n
  /-- The handles on the removed inode may be lost, when there are too many to count. -/
  held : ∃ a, a ≠ dir ∧ (held' = held ∨ held' = held.filter (· ≠ a))
  sector : ∀ b j j', s.inode b = some j → s'.inode b = some j' → j'.sector = j.sector
  removed : ∀ j ∈ s'.inodes, j.removed = true →
    (∃ j' ∈ s.inodes, j'.sector = j.sector ∧ j'.removed = true) ∨
      ok = true ∧ ∃ k, k < c ∧ Fs.Names s.device n k str ∧
        j.sector = entrySector (entryAt s.device n k)
  failed : ok = false → s'.device = s.device ∧ s'.freeMap = s.freeMap ∧ nodes' = nodes
  done : ok = true → ∃ k, k < c ∧ Fs.Names s.device n k str ∧
    entryInUse (entryAt s'.device n k) = false ∧
    (∀ j, j < c → j ≠ k → entryAt s'.device n j = entryAt s.device n j) ∧
    Unchanged s.device s'.device (fun x => ¬MapArea s x ∧ ¬(inodeAt s.device n).Has x) ∧
    ∀ x ∈ nodes, x ∉ nodes' → x = entrySector (entryAt s.device n k)
  success : s.answers = [] → (ok = true ↔ ∃ k, k < c ∧ Fs.Names s.device n k str)

section
variable {a : Nat} (h : Directory s nodes n c) (hv : Volume s files nodes held)
include h hv

/-- The inode whose entry has been erased is marked as removed. -/
theorem Directory.inodeRemove (hi : s.inode a = some i) (h0 : i.sector ≠ 0) (hne : i.sector ≠ n)
    (hfree : ∀ k, k < c → entryInUse (entryAt s.device n k) = true →
      entrySector (entryAt s.device n k) ≠ i.sector) :
    Directory (s.setInode a fun i => { i with removed := true }) nodes n c := by
  refine ⟨h.node, h.ne_zero, h.length, h.entry, h.apart, fun j hj hrem => ?_⟩
  rcases (Objects.mem_modify hv.counted.addrs hi).mp hj with rfl | ⟨hj, -⟩
  · exact ⟨h0, hne, hfree⟩
  · exact h.removed j hj hrem

/-- An inode is closed that is neither the directory's nor one in the directory. -/
theorem Directory.close {held' : List Nat} (hclosed : Closed s nodes held a i s' nodes' held')
    (hi : s.inode a = some i) :
    Directory s' nodes' n c := by
  have hkeep : ∀ m ∈ nodes, (i.removed = true → m ≠ i.sector) → m ∈ nodes' := by
    intro m hm hne
    by_contra hlost
    obtain ⟨heq, hrem⟩ := hclosed.lost m hm hlost
    exact hne hrem heq
  have hremoved := h.removed i (Objects.mem_of_get hi)
  refine h.congr hv.owned hclosed.device (fun k hk => hv.not_mapArea_of_area h.node h.ne_zero hk)
    (hkeep n h.node fun hrem => Ne.symm (hremoved hrem).2.1) (fun k hk huse => ?_)
    fun j hj hrem => hclosed.removed hj hrem
  exact hkeep _ (h.entry k hk huse).node fun hrem => (hremoved hrem).2.2 k hk huse

end

/-- The inode of an entry is open: what `dir_remove` has done so far. -/
structure Found (s : Fs) (n c k a : Nat) (s' : Fs) (nodes : Set Nat) (i : Inode) : Prop where
  opened : Opened s (entrySector (entryAt s.device n k)) (some a) s'
  inode : s'.inode a = some i
  sector : i.sector = entrySector (entryAt s.device n k)
  lt : k < c
  inUse : entryInUse (entryAt s.device n k) = true
  directory : Directory s' nodes n c

section
variable {a k : Nat} {i₂ : Inode} (h : Found s n c k a s' nodes i) (hi₂ : s'.inode dir = some i₂)
  (hsector : i₂.sector = n)
include h hi₂ hsector

/-- It is not the inode of the free map, and not the directory's. -/
theorem Found.ne : i.sector ≠ 0 ∧ i.sector ≠ n ∧ dir ≠ a := by
  have hentry := h.directory.entry k h.lt (h.opened.device ▸ h.inUse)
  have hne : i.sector ≠ n := by
    rw [h.sector, ← h.opened.device]
    exact hentry.ne_dir
  refine ⟨?_, hne, ?_⟩
  · rw [h.sector, ← h.opened.device]
    exact hentry.ne_zero
  · rintro rfl
    rw [Option.some.inj (h.inode.symm.trans hi₂)] at hne
    exact hne hsector

variable (hv' : Volume s' files nodes (a :: held))
  (hlast : wrap ((users files (a :: held) a : Int) - 1) = 0 → ∀ f ∈ files, f.inode ≠ a)
  (answers : List Bool)
include hv' hlast

/-- The entry is erased, and the inode removed and closed. -/
theorem Found.remove (hv : Volume s files nodes held) (hfile : s.freeMapFile.isSome = true)
    (hanswers : s.answers = [] → answers = []) :
    ∃ s₄ s₅ nodes' held',
      Fs.inodeRemove { s' with
        device := Filesys.putEntry s'.device n k (setInUse (entryAt s.device n k) false), answers } a =
          some s₄ ∧
      s₄.inodeClose a = some s₅ ∧ Volume s₅ files nodes' held' ∧ Directory s₅ nodes' n c ∧
      (Fs.Names s.device n k str → DirRemoved s nodes held dir n c str true s₅ nodes' held') := by
  have hdevice : s'.device = s.device := h.opened.device
  have hlength : (setInUse (entryAt s.device n k) false).length = entrySize :=
    length_setInUse (length_entryAt _ _ _) false
  have hfree : entryInUse (setInUse (entryAt s.device n k) false) = false :=
    entryInUse_setInUse (length_entryAt _ _ _) false
  obtain ⟨hv₃, h₃, hsame₃, hself₃, hother₃⟩ := h.directory.putEntry hv' h.lt hlength answers
    fun huse => nomatch hfree.symm.trans huse
  obtain ⟨h0, hne, hdir⟩ := h.ne hi₂ hsector
  generalize Filesys.putEntry s'.device n k (setInUse (entryAt s.device n k) false) = d at *
  have hgone : ∀ j, j < c → entryInUse (entryAt d n j) = true →
      entrySector (entryAt d n j) ≠ i.sector := by
    intro j hj
    by_cases hjk : j = k
    · rw [hjk, hself₃, hfree]
      exact (nomatch ·)
    · rw [hother₃ j hjk, h.sector, ← hdevice]
      exact fun huse heq => hjk (h.directory.apart j hj k h.lt huse (hdevice ▸ h.inUse) heq)
  have hi₃ : Fs.inode { s' with device := d, answers } a = some i := h.inode
  obtain ⟨hcode₄, hv₄⟩ := hv₃.inodeRemove hi₃
  have h₄ := h₃.inodeRemove hv₃ hi₃ h0 hne hgone
  have hi₄ := Fs.inode_setInode (fun i => { i with removed := true }) (fun _ => rfl) hi₃
  generalize hs₄ : Fs.setInode { s' with device := d, answers } a
    (fun i => { i with removed := true }) = s₄ at *
  have hkept₄ : ∀ b, b ≠ a → s₄.inode b = s'.inode b := fun b hb =>
    hs₄ ▸ Fs.inode_setInode_of_ne _ (fun _ => rfl) hb
  have hmem₄ : ∀ j ∈ s₄.inodes, j = { i with removed := true } ∨ j ∈ s'.inodes := by
    rw [← hs₄]
    exact fun j hj => ((Objects.mem_modify hv₃.counted.addrs hi₃).mp hj).imp_right And.left
  have hdevice₄ : s₄.device = d := by rw [← hs₄]; rfl
  have hfile₄ : s₄.freeMapFile = s.freeMapFile := by rw [← hs₄]; exact h.opened.freeMapFile
  obtain ⟨s₅, nodes', held', hcode₅, hv₅, hclosed⟩ := hv₄.inodeClose mem_cons_self hi₄ hlast
    (fun _ => h0) fun _ => by rw [hfile₄]; exact hfile
  refine ⟨s₄, s₅, nodes', held', hcode₄, hcode₅, hv₅, h₄.close hv₄ hclosed hi₄, fun hnames => ?_⟩
  have hnode : 0 ∈ nodes := by
    obtain ⟨f, hf⟩ := Option.isSome_iff_exists.mp hfile
    exact (hv.map f hf).1
  have hsame₄ : Unchanged s.device s₄.device fun k => ¬(inodeAt s.device n).Has k := by
    rw [hdevice₄]
    rwa [hdevice] at hsame₃
  have hentries : ∀ j, j < c → entryAt s₅.device n j = entryAt s₄.device n j := fun j hj =>
    entryAt_of_unchanged hclosed.device (hv₄.owned.onDevice n h₄.node)
      (fun x hx => hv₄.not_mapArea_of_area h₄.node h₄.ne_zero hx) h₄.length hj
  refine ⟨?_, hclosed.freeMapFile.trans hfile₄, ?_, ?_, hclosed.sub, ?_, ?_, ?_, ?_, (nomatch ·),
    fun _ => ⟨k, h.lt, hnames, ?_, fun j hj hjk => ?_, ?_, ?_⟩,
    fun _ => ⟨fun _ => ⟨k, h.lt, hnames⟩, fun _ => rfl⟩⟩
  · rw [hclosed.files, ← hs₄]
    exact h.opened.files
  · intro hnil
    refine hclosed.answers ?_
    rw [← hs₄]
    exact hanswers hnil
  · intro hnil hsaved
    refine hclosed.saved ?_ (by rw [hfile₄]; exact hfile) ?_
    · rw [← hs₄]
      exact hanswers hnil
    · have hmap : s₄.freeMap = s.freeMap := by rw [← hs₄]; exact h.opened.freeMap
      rw [hmap]
      refine hv.saved hfile hsame₄ (fun x hx hhas => ?_) hsaved
      exact hv.owned.apart n h.directory.node 0 hnode h.directory.ne_zero x (.inr hhas) hx
  · exact ⟨i₂, hclosed.kept dir i₂ hdir ((hkept₄ dir hdir).trans hi₂), hsector⟩
  · exact ⟨a, Ne.symm hdir, hclosed.held_cons⟩
  · intro b j j' hj hj'
    obtain ⟨j₂, hj₂, -⟩ := h.opened.kept b j hj
    rw [← h.opened.sector_eq hj hj₂]
    by_cases hb : b = a
    · subst hb
      rw [Option.some.inj (hj₂.symm.trans h.inode), hclosed.sector_eq hv₄ hi₄ hj']
    · exact hclosed.sector_eq hv₄ ((hkept₄ b hb).trans hj₂) hj'
  · intro j hj hrem
    obtain ⟨j₄, hj₄, hcore₄⟩ := hclosed.inodes j hj
    simp only [Fs.core, Prod.mk.injEq] at hcore₄
    rw [← hcore₄.2.1]
    rcases hmem₄ j₄ hj₄ with rfl | hj₄
    · exact .inr ⟨rfl, k, h.lt, hnames, h.sector⟩
    · exact .inl (h.opened.removed j₄ hj₄ (hcore₄.2.2.1.trans hrem))
  · rw [hentries k h.lt, hdevice₄, hself₃, hfree]
  · rw [hentries j hj, hdevice₄, hother₃ j hjk, hdevice]
  · refine (hsame₄.mono fun _ hx => hx.2).trans (hclosed.device.mono fun x hx hmap => hx.1 ?_)
    exact hv.mapArea_of_unchanged hsame₄ (fun m hm => hv.owned.not_has hm h.directory.node) hfile₄ hmap
  · intro x hx hlost
    exact (hclosed.lost x hx hlost).1.trans h.sector

/-- The entry cannot be erased: the inode is closed. -/
theorem Found.close (hanswers : s.answers ≠ []) :
    ∃ s₄ held', Fs.inodeClose { s' with answers } a = some s₄ ∧ Volume s₄ files nodes held' ∧
      Directory s₄ nodes n c ∧ DirRemoved s nodes held dir n c str false s₄ nodes held' := by
  have hdevice : s'.device = s.device := h.opened.device
  obtain ⟨h0, -, hdir⟩ := h.ne hi₂ hsector
  have hkeep : i.removed = false := by
    by_contra hrem
    have hnot := h.directory.removed i (Objects.mem_of_get h.inode)
      (Bool.eq_true_of_not_eq_false hrem)
    refine hnot.2.2 k h.lt (hdevice ▸ h.inUse) ?_
    rw [h.sector, hdevice]
  have hv₃ := hv'.withAnswers answers
  have h₃ : Directory { s' with answers } nodes n c := h.directory.same rfl rfl
  have hi₃ : Fs.inode { s' with answers } a = some i := h.inode
  obtain ⟨s₄, nodes', held', hcode, hv₄, hclosed⟩ := hv₃.inodeClose mem_cons_self hi₃ hlast
    (fun _ => h0) fun hrem => nomatch hrem.symm.trans hkeep
  obtain rfl : nodes' = nodes := hclosed.nodes_eq hkeep
  obtain ⟨hmap, hsame⟩ := hclosed.same hkeep
  refine ⟨s₄, held', hcode, hv₄, h₃.close hv₃ hclosed hi₃, hclosed.files.trans h.opened.files,
    hclosed.freeMapFile.trans h.opened.freeMapFile, (absurd · hanswers), (absurd · hanswers),
    fun _ => id, ⟨i₂, hclosed.kept dir i₂ hdir hi₂, hsector⟩, ⟨a, Ne.symm hdir, hclosed.held_cons⟩,
    ?_, fun j hj hrem => ?_,
    fun _ => ⟨hsame.trans hdevice, hmap.trans h.opened.freeMap, rfl⟩, (nomatch ·),
    (absurd · hanswers)⟩
  · intro b j j' hj hj'
    obtain ⟨j₂, hj₂, -⟩ := h.opened.kept b j hj
    rw [← h.opened.sector_eq hj hj₂]
    exact hclosed.sector_eq hv₃ hj₂ hj'
  · obtain ⟨j₃, hj₃, hsector₃, hrem₃⟩ := hclosed.removed hj hrem
    rw [← hsector₃]
    exact .inl (h.opened.removed j₃ hj₃ hrem₃)

end

/-- **`dir_remove`.** -/
theorem Directory.dirRemove (h : Directory s nodes n c) (hv : Volume s files nodes held)
    (hi : s.inode dir = some i) (hsector : i.sector = n) (hfile : s.freeMapFile.isSome = true)
    (hlast : ∀ b j, s.inode b = some j →
      (∃ k, k < c ∧ entryInUse (entryAt s.device n k) = true ∧
        entrySector (entryAt s.device n k) = j.sector) →
      wrap (users files held b) = 0 → ∀ f ∈ files, f.inode ≠ b) (hname : 0 ∈ name) :
    ∃ s' ok nodes' held', s.dirRemove dir name = some (s', ok) ∧ Volume s' files nodes' held' ∧
      Directory s' nodes' n c ∧
      DirRemoved s nodes held dir n c (string name) ok s' nodes' held' := by
  obtain ⟨answers, r, hlookup, hr⟩ := (h.openDir hv hi hsector).lookup hname
  have hv₁ := hv.withAnswers answers
  have h₁ : Directory { s with answers } nodes n c := h.same rfl rfl
  rw [Fs.dirRemove, hlookup]
  cases r with
  | none =>
    refine ⟨_, false, nodes, held, rfl, hv₁, h₁, rfl, rfl, hr.answers, fun _ => id, fun _ => id,
      ⟨i, hi, hsector⟩, ⟨dir + 1, Nat.succ_ne_self dir, .inl rfl⟩, fun b j j' hj hj' => ?_,
      fun j hj hrem => .inl ⟨j, hj, rfl, hrem⟩, fun _ => ⟨rfl, rfl, rfl⟩, (nomatch ·),
      fun hnil => ⟨(nomatch ·), ?_⟩⟩
    · rw [Option.some.inj (hj'.symm.trans hj)]
    · rintro ⟨k, hk, hnames⟩
      exact absurd hnames (hr.missed rfl hnil k hk)
  | some found =>
    obtain ⟨e, ofs⟩ := found
    obtain ⟨k, hk, rfl, rfl, hnames⟩ := hr.found e ofs rfl
    obtain ⟨s₂, r, hopen, hv₂, hopened⟩ := hv₁.inodeOpen (h.entry k hk hnames.1).node
    have hdevice : s₂.device = s.device := hopened.device
    have hunchanged : Unchanged s.device s₂.device fun _ => True :=
      ⟨by rw [hdevice], fun x _ => by rw [hdevice]⟩
    have h₂ : Directory s₂ nodes n c := h₁.congr hv₁.owned hunchanged (fun _ _ => trivial) h.node
      (fun j hj huse => (h.entry j hj huse).node) hopened.removed
    obtain ⟨i₂, hi₂, -⟩ := hopened.kept dir i hi
    have hsector₂ : i₂.sector = n := (hopened.sector_eq hi hi₂).trans hsector
    have hnil : s.answers = [] → s₂.answers = [] := fun hs => hopened.answers (hr.answers hs)
    have hopened' : Opened s (entrySector (entryAt s.device n k)) r s₂ :=
      ⟨hopened.files, hopened.device, hopened.freeMap, hopened.freeMapFile, hnil, hopened.inode,
        hopened.kept, hopened.removed, fun hs => hopened.success (hr.answers hs)⟩
    simp only [some_bind, hopen]
    cases r with
    | none =>
      refine ⟨s₂, false, nodes, held, rfl, hv₂, h₂, hopened'.files, hopened'.freeMapFile, hnil,
        fun hs => absurd (hopened'.success hs) (by decide), fun _ => id, ⟨i₂, hi₂, hsector₂⟩,
        ⟨dir + 1, Nat.succ_ne_self dir, .inl rfl⟩, fun b j j' hj hj' => hopened'.sector_eq hj hj',
        fun j hj hrem => .inl (hopened'.removed j hj hrem),
        fun _ => ⟨hdevice, hopened'.freeMap, rfl⟩, (nomatch ·),
        fun hs => absurd (hopened'.success hs) (by decide)⟩
    | some a =>
      obtain ⟨i₃, hi₃, hsector₃⟩ := hopened'.inode a rfl
      have hfound : Found s n c k a s₂ nodes i₃ := ⟨hopened', hi₃, hsector₃, hk, hnames.1, h₂⟩
      have hlast' : wrap ((users files (a :: held) a : Int) - 1) = 0 → ∀ f ∈ files, f.inode ≠ a := by
        intro hwrap f hf hfa
        rw [Counted.users_cons_self, Int.natCast_add, Int.natCast_one, Int.add_sub_cancel] at hwrap
        obtain ⟨j, hj⟩ := hv.counted.get_of_file hf
        rw [hfa] at hj
        have hsame := hopened'.sector_eq hj hi₃
        exact hlast a j hj ⟨k, hk, hnames.1, hsector₃.symm.trans hsame⟩ hwrap f hf hfa
      have hwrite := (h₂.openDir hv₂ hi₂ hsector₂).writeEntry (Nat.le_of_lt hk)
        (length_setInUse (length_entryAt s.device n k) false)
      by_cases hdone : s₂.answers.headD true = true ∧ k < c
      · obtain ⟨s₄, s₅, nodes', held', hcode₄, hcode₅, hv₅, h₅, hremoved⟩ := hfound.remove hi₂
          hsector₂ hv₂ hlast' s₂.answers.tail hv hfile fun hs => by rw [hnil hs]; rfl
        refine ⟨s₅, true, nodes', held', ?_, hv₅, h₅, hremoved hnames⟩
        simp only [hwrite, if_pos hdone, some_bind, ne_eq, not_true_eq_false, if_false, hcode₄, hcode₅]
      · have hs : s.answers ≠ [] := fun hs => by
          rw [hnil hs] at hdone
          exact hdone ⟨rfl, hk⟩
        obtain ⟨s₄, held', hcode, hv₄, h₄, hremoved⟩ := hfound.close hi₂ hsector₂ hv₂ hlast'
          s₂.answers.tail hs
        refine ⟨s₄, false, nodes, held', ?_, hv₄, h₄, hremoved⟩
        have hzero : (0 : Nat) ≠ entrySize := by decide
        simp only [hwrite, if_neg hdone, some_bind, if_pos hzero, hcode]

/-! ## New inodes beside a directory -/

theorem Reserved.notMem (h : Reserved s nodes m) : m ∉ nodes := fun hm => h.fresh m hm (.inl rfl)

/-- A sector is allocated, and reserved then. -/
theorem Volume.allocateOne (h : Volume s files nodes held) :
    ∃ s' r, s.freeMapAllocate 1 = some (s', r) ∧ Volume s' files nodes held ∧ Allocated s 1 r s' ∧
      ∀ m, r = some m → Reserved s' nodes m := by
  obtain ⟨s', r, hcode, hv, halloc⟩ := h.freeMapAllocate 1
  refine ⟨s', r, hcode, hv, halloc, fun m hm => ?_⟩
  obtain ⟨hfits, hfree, hset⟩ := halloc.taken m hm
  refine ⟨?_, ?_, fun x hx harea => ?_⟩
  · rw [halloc.device.size, ← h.owned.bitCnt]
    exact hfits
  · rw [hset.bit_eq, if_pos ⟨Nat.le_refl m, Nat.lt_succ_self m⟩]
  · rw [Area, halloc.device.inodeAt (h.not_mapArea hx)] at harea
    exact absurd ((h.owned.marked x hx m harea).symm.trans (hfree 0 Nat.one_pos)) (by decide)

section
variable (h : Directory s nodes n c) (hv : Volume s files nodes held)
  (hsame : Unchanged s.device s'.device (¬MapArea s ·))
include h hv hsame

/-- The directory does not change when only the free map is written. -/
theorem Directory.of_mapArea (htable : s'.toOpenTable = s.toOpenTable) :
    Directory s' nodes n c := by
  refine h.congr hv.owned hsame (fun k hk => hv.not_mapArea_of_area h.node h.ne_zero hk) h.node
    (fun k hk huse => (h.entry k hk huse).node) fun i hi hrem => ?_
  rw [htable] at hi
  exact ⟨i, hi, rfl, hrem⟩

theorem Directory.entry_of_mapArea {k : Nat} (hk : k < c) :
    entryAt s'.device n k = entryAt s.device n k :=
  entryAt_of_unchanged hsame (hv.owned.onDevice n h.node)
    (fun _ hx => hv.not_mapArea_of_area h.node h.ne_zero hx) h.length hk

end

/-- The sectors of other inodes are not written when an inode is made. -/
theorem Created.of_area {length : Int} {x : Nat} (h : Created s m length s')
    (hv : Volume s files nodes held) (hv' : Volume s' files (insert m nodes) held) (hm : m ∉ nodes)
    (hx : x ∈ nodes) (h0 : x ≠ 0) {k : Nat} (hk : Area s.device x k) :
    ¬MapArea s k ∧ ¬Area s'.device m k := by
  have hne : m ≠ x := fun heq => hm (heq ▸ hx)
  have hapart : ∀ k, Area s'.device x k → ¬Area s'.device m k := fun k hk hk' =>
    hv'.owned.apart m (.inl rfl) x (.inr hx) hne k hk' hk
  have hinode : inodeAt s'.device x = inodeAt s.device x :=
    h.device.inodeAt ⟨hv.not_mapArea hx, hapart x (.inl rfl)⟩
  refine ⟨hv.not_mapArea_of_area hx h0 hk, hapart k ?_⟩
  rwa [Area, hinode]

/-- **An inode is made** in a sector that is reserved for it: the directory has no entry for it
yet, and may get one. -/
theorem Directory.created {length : Int} (h : Directory s nodes n c) (hv : Volume s files nodes held)
    (h0 : 0 ∈ nodes) (hm : Reserved s nodes m)
    (hcreate : InodeCreate s files nodes held m length true s') :
    Directory s' (insert m nodes) n c ∧ Unbound s' (insert m nodes) n c m ∧
      ∀ k, k < c → entryAt s'.device n k = entryAt s.device n k := by
  obtain ⟨hv', hcreated⟩ := hcreate.created rfl
  have harea : ∀ k, Area s.device n k → ¬MapArea s k ∧ ¬Area s'.device m k := fun k hk =>
    hcreated.of_area hv hv' hm.notMem h.node h.ne_zero hk
  have hentry : ∀ k, k < c → entryAt s'.device n k = entryAt s.device n k := fun k hk =>
    entryAt_of_unchanged hcreated.device (hv.owned.onDevice n h.node) harea h.length hk
  refine ⟨?_, ⟨.inl rfl, ?_, ?_, ?_, ?_⟩, hentry⟩
  · refine h.congr hv.owned hcreated.device harea (.inr h.node)
      (fun k hk huse => .inr (h.entry k hk huse).node) fun i hi hrem => ?_
    rw [hcreate.table] at hi
    exact ⟨i, hi, rfl, hrem⟩
  · rintro rfl
    exact hm.notMem h0
  · rintro rfl
    exact hm.notMem h.node
  · intro k hk huse heq
    rw [hentry k hk] at huse heq
    exact hm.notMem (heq ▸ (h.entry k hk huse).node)
  · intro i hi hrem heq
    rw [hcreate.table] at hi
    exact hm.notMem (heq ▸ (hv.opened i hi).1)

end Directories

end Pintos.Filesys
