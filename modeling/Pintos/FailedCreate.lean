import Pintos.SectorOwnership

/-!
# Failed creation

What `filesys_create` leaves behind when it fails.  It allocates a sector for the inode, lets
`inode_create` allocate sectors for the data, and adds an entry to the root directory; when one of
the three fails, it releases the sector of the inode.

The entries of the root directory and the open inodes are then as before.  **The free map is as
before exactly when the inode was not made, or has no data** (`failed_create_iff`): nothing
releases the data of an inode for which there is no entry.
-/

namespace Pintos.Filesys

open CString

namespace Fs

/-- Whether `free_map_allocate` and `inode_create` succeed in a state. -/
def allocatesInode (s : Fs) (size : Int) : Bool :=
  (do
    let (s, sector) ← s.freeMapAllocate 1
    let (_, ok) ← s.inodeCreate (← sector) size
    some ok : Option Bool).getD false

/-- Whether `filesys_create` gets as far as an inode: the directory can be opened, and there are
sectors for the inode and its data. -/
def makesInode (s : Fs) (size : Int) : Bool :=
  (do
    let (s, dir) ← s.dirOpenRoot
    let _ ← dir
    some (s.allocatesInode size) : Option Bool).getD false

end Fs

section Failed
variable {s s' : Fs} {nodes nodes' : Set Nat} {held : List Nat} {a sector : Nat} {name : CharPtr}
  {size : Int} {junk : Memory}

/-- The sectors in use when the conjunction in `filesys_create` has failed: that of the inode, and
`cnt` for its data. -/
structure Left (s : Fs) (sector start cnt : Nat) (s' : Fs) : Prop where
  free : s.freeMap.bit sector = false
  data : ∀ k, start ≤ k → k < start + cnt → s.freeMap.bit k = false ∧ k ≠ sector
  bits : ∀ k, s'.freeMap.bit k = true ↔
    s.freeMap.bit k = true ∨ k = sector ∨ start ≤ k ∧ k < start + cnt

/-- **The conjunction has failed.** -/
theorem Ordered.tryCreate_failed (h : Ordered s nodes [a]) (hroot : RootAt s a) (hname : 0 ∈ name)
    (h0 : 0 ≤ size) (hlt : size < 2147483648)
    (hcode : s.tryCreate (some a) name size junk = some (s', sector, false)) :
    (sector = 0 ∧ s.allocatesInode size = false ∧ ∀ k, s'.freeMap.bit k = s.freeMap.bit k) ∨
    sector ≠ 0 ∧ ∃ start cnt, Left s sector start cnt s' ∧
      (s.allocatesInode size = false → cnt = 0) ∧
      (s.allocatesInode size = true → cnt = bytesToSectors size) := by
  obtain ⟨s₁, r, hcode₁, h₁, halloc, hreserved⟩ := h.allocate
  cases r with
  | none =>
    simp only [Fs.tryCreate, hcode₁, some_bind] at hcode
    obtain ⟨rfl, rfl, -⟩ := hcode
    refine .inl ⟨rfl, ?_, halloc.failed rfl⟩
    simp only [Fs.allocatesInode, hcode₁, some_bind]
    rfl
  | some n =>
    right
    have hn := hreserved n rfl
    obtain ⟨-, hfree, hset⟩ := halloc.taken n rfl
    have hne : n ≠ 0 := fun hn0 => hn.fresh 0 h.zero_mem (hn0 ▸ .inl rfl)
    have hbits₁ : ∀ k, s₁.freeMap.bit k = true ↔ s.freeMap.bit k = true ∨ k = n := by
      intro k
      rw [hset.bit_eq]
      by_cases hk : n ≤ k ∧ k < n + 1
      · rw [if_pos hk]
        exact ⟨fun _ => .inr (by omega), fun _ => rfl⟩
      · rw [if_neg hk]
        exact ⟨.inl, fun h => h.resolve_right (by omega)⟩
    obtain ⟨s₂, ok, hcode₂, hcreate, -, hdone⟩ := h₁.create hn h0 hlt
    have hmakes : s.allocatesInode size = ok := by
      simp only [Fs.allocatesInode, hcode₁, hcode₂, some_bind]
      rfl
    simp only [Fs.tryCreate, hcode₁, hcode₂, some_bind] at hcode
    cases ok with
    | false =>
      obtain ⟨rfl, rfl, -⟩ := hcode
      obtain ⟨-, -, -, hbits₂⟩ := hcreate.failed rfl
      refine ⟨hne, 0, 0, ⟨hfree 0 Nat.one_pos, fun k _ hk => absurd hk (Nat.not_lt_zero k),
        fun k => ?_⟩, fun _ => rfl, fun h => ?_⟩
      · rw [hbits₂, hbits₁]
        exact or_congr_right ⟨.inl, fun h => h.resolve_right (by omega)⟩
      · rw [hmakes] at h
        cases h
    | true =>
      obtain ⟨h₂, hunbound⟩ := hdone rfl
      obtain ⟨-, hcreated⟩ := hcreate.created rfl
      have htable₂ : s₂.toOpenTable = s.toOpenTable := hcreate.table.trans halloc.table
      obtain ⟨s₃, ok, hcode₃, -, -, -, hmap₃, -⟩ :=
        h₂.dirAdd (hroot.of_table htable₂) hname hunbound junk
      simp only [hcode₃, some_bind] at hcode
      obtain ⟨rfl, rfl, -⟩ := hcode
      refine ⟨hne, (inodeAt s₂.device sector).start, bytesToSectors size,
        ⟨hfree 0 Nat.one_pos, fun k hk hk' => ?_, fun k => ?_⟩, fun h => ?_, fun _ => rfl⟩
      · have hfresh := hcreated.fresh k ⟨hk, by rwa [hcreated.length_eq]⟩
        have hold := mt (hbits₁ k).mpr (Bool.not_eq_true _ ▸ hfresh)
        rw [not_or, Bool.not_eq_true] at hold
        exact hold
      · rw [hmap₃, hcreated.bits, hbits₁, InodeDisk.Has, hcreated.length_eq, or_assoc]
      · rw [hmakes] at h
        cases h

/-- The sector of the inode is released: what is left are the sectors of the data. -/
theorem Left.release {start cnt : Nat} {s'' : Fs} (h : Left s sector start cnt s')
    (hreleased : Fs.ReleasedRange s' sector 1 s'') (k : Nat) :
    s''.freeMap.bit k = true ↔ s.freeMap.bit k = true ∨ start ≤ k ∧ k < start + cnt := by
  rw [hreleased.freeMap.bit_eq]
  by_cases hk : sector ≤ k ∧ k < sector + 1
  · obtain rfl : k = sector := by omega
    rw [if_pos hk, h.free]
    simp only [Bool.false_eq_true, false_or, false_iff]
    exact fun hdata => (h.data k hdata.1 hdata.2).2 rfl
  · rw [if_neg hk, h.bits]
    exact or_congr_right ⟨fun hor => hor.resolve_left (by omega), .inr⟩

/-- No file is open on the root directory. -/
theorem Ordered.sector_ne_one (h : Ordered s nodes held) {f : File} (hf : f ∈ s.files) {i : Inode}
    (hi : s.inode f.inode = some i) : i.sector ≠ 1 := by
  by_cases hmap : s.freeMapFile = some f.addr
  · obtain ⟨-, -, file, j, hfile, hj, hsector⟩ := h.volume.map f.addr hmap
    obtain rfl : file = f := h.volume.counted.files.eq_of_key (Objects.mem_of_get hfile) hf
      (Objects.key_of_get hfile)
    rw [Option.some.inj (hi.symm.trans hj), hsector]
    decide
  · exact (h.user f hf hmap i hi).2

/-- An open inode has users. -/
theorem Ordered.users_pos (h : Ordered s nodes held) {b : Nat} {j : Inode}
    (hj : s.inode b = some j) : 0 < users s.files held b :=
  (h.volume.counted.open_iff b).mpr ⟨j, Objects.mem_of_get hj, Objects.key_of_get hj⟩

/-- Where the files are the same ones, so are the open inodes. -/
theorem Ordered.inode_eq (h : Ordered s nodes []) (h' : Ordered s' nodes' [])
    (hfiles : s'.files = s.files) (hkept : KeepsOthers s s') (b : Nat) : s'.inode b = s.inode b := by
  cases hj : s.inode b with
  | none =>
    cases hj' : s'.inode b with
    | none => rfl
    | some j' =>
      have hpos := h'.users_pos hj'
      rw [hfiles] at hpos
      obtain ⟨i, hi, haddr⟩ := (h.volume.counted.open_iff b).mp hpos
      obtain ⟨y, hy⟩ : ∃ y, Objects.get Inode.addr s.inodes i.addr = some y := Objects.get_isSome hi
      rw [haddr] at hy
      cases hj.symm.trans hy
  | some j =>
    -- some file is open on it, so that it is not the root directory's
    have hpos := h.users_pos hj
    rw [users, List.count_nil, Nat.add_zero] at hpos
    obtain ⟨f, hf, hfb⟩ := List.countP_pos_iff.mp hpos
    obtain rfl : f.inode = b := of_decide_eq_true hfb
    obtain ⟨j', hj', hcore⟩ := hkept f.inode j hj (h.sector_ne_one hf hj)
    rw [hj']
    -- the counts are those of the files
    have hopen := h.volume.counted.openCnt j (Objects.mem_of_get hj)
    have hopen' := h'.volume.counted.openCnt j' (Objects.mem_of_get hj')
    have hdeny := h.volume.counted.denyWriteCnt j (Objects.mem_of_get hj)
    have hdeny' := h'.volume.counted.denyWriteCnt j' (Objects.mem_of_get hj')
    obtain ⟨addr, sector, openCnt, removed, denyWriteCnt, data⟩ := j
    obtain ⟨addr', sector', openCnt', removed', denyWriteCnt', data'⟩ := j'
    simp only [Fs.core, Prod.mk.injEq] at hcore
    obtain ⟨rfl, rfl, rfl, rfl⟩ := hcore
    rw [hfiles] at hopen' hdeny'
    obtain rfl : openCnt' = openCnt := hopen'.trans hopen.symm
    obtain rfl : denyWriteCnt' = denyWriteCnt := hdeny'.trans hdeny.symm
    rfl

theorem KeepsOthers.of_table (htable : s'.toOpenTable = s.toOpenTable) : KeepsOthers s s' := by
  intro b j hj _
  refine ⟨j, ?_, rfl⟩
  rw [Fs.inode, htable]
  exact hj

theorem KeepsOthers.trans {s'' : Fs} (h : KeepsOthers s s') (h' : KeepsOthers s' s'') :
    KeepsOthers s s'' := by
  intro b j hj h1
  obtain ⟨j', hj', hcore⟩ := h b j hj h1
  have hsector : j'.sector = j.sector := congrArg (fun c => c.2.1) hcore
  obtain ⟨j'', hj'', hcore'⟩ := h' b j' hj' (hsector ▸ h1)
  exact ⟨j'', hj'', hcore'.trans hcore⟩

/-- **What a failed creation leaves behind**: sectors for data, if the inode was made. -/
theorem Ordered.filesysCreate_failed (h : Ordered s nodes []) (hname : 0 ∈ name) (h0 : 0 ≤ size)
    (hlt : size < 2147483648) (hcode : s.filesysCreate name size junk = some (s', false)) :
    (∃ start cnt, (∀ k, s'.freeMap.bit k = true ↔
        s.freeMap.bit k = true ∨ start ≤ k ∧ k < start + cnt) ∧
      (∀ k, start ≤ k → k < start + cnt → s.freeMap.bit k = false) ∧
      (s.makesInode size = false → cnt = 0) ∧
      (s.makesInode size = true → cnt = bytesToSectors size)) ∧
    (∀ k, k < 16 → entryAt s'.device 1 k = entryAt s.device 1 k) ∧
    ∀ b, s'.inode b = s.inode b := by
  obtain ⟨s₀, ok, nodes', hcode₀, h', hcreated⟩ := h.filesysCreate hname h0 hlt junk
  obtain ⟨rfl, rfl⟩ := Prod.mk.inj (Option.some.inj (hcode₀.symm.trans hcode))
  obtain ⟨s₁, r, hcode₁, h₁, hq₁, hkept₁, hroot, -⟩ := h.dirOpenRoot
  simp only [Fs.filesysCreate, hcode₁, some_bind] at hcode
  -- the inodes are kept up to the end, where they are the ones of the files
  rw [← hq₁.freeMap]
  refine have hleft : KeepsOthers s₁ s₀ ∧ _ := ?_
    ⟨hleft.2, (hcreated.failed rfl).2, h.inode_eq h' hcreated.files (hkept₁.trans hleft.1)⟩
  cases r with
  | none =>
    cases hcode
    have hmakes : s.makesInode size = false := by
      simp only [Fs.makesInode, hcode₁, some_bind]
      rfl
    refine ⟨.of_table rfl, 0, 0, fun k => ?_, fun k _ hk => absurd hk (Nat.not_lt_zero k),
      fun _ => rfl, fun hm => ?_⟩
    · exact ⟨.inl, fun hor => hor.resolve_right (by omega)⟩
    · rw [hmakes] at hm
      cases hm
  | some a =>
    have hroot₁ := hroot a rfl
    have hmakes : s.makesInode size = s₁.allocatesInode size := by
      simp only [Fs.makesInode, hcode₁, some_bind]
      rfl
    obtain ⟨s₂, sector, ok, nodes'', hcode₂, h₂, htable₂, hcreated₂, hreserved⟩ :=
      h₁.tryCreate hroot₁ hname h0 hlt junk
    have hroot₂ := hroot₁.of_table htable₂
    simp only [hcode₂, some_bind] at hcode
    have hok : ok = false := by
      cases ok with
      | false => rfl
      | true =>
        rw [if_neg fun hand => Bool.noConfusion hand.1] at hcode
        obtain ⟨s₃, -, hcode⟩ := of_bind hcode
        cases hcode
    subst hok
    obtain rfl := (hcreated₂.failed rfl).1
    rw [hmakes]
    rcases h₁.tryCreate_failed hroot₁ hname h0 hlt hcode₂ with
      ⟨hsector, hnone, hbits⟩ | ⟨hsector, start, cnt, hleft, hno, hyes⟩
    · -- nothing has been allocated
      obtain ⟨s₃, hcode₃, -, hq₃, hkept₃⟩ := Ordered.dirClose (r := some a) h₂ (by
        rintro _ ⟨⟩
        exact hroot₂)
      rw [if_neg fun hand => hand.2 hsector, hcode₃, some_bind] at hcode
      cases hcode
      refine ⟨(KeepsOthers.of_table htable₂).trans hkept₃, 0, 0, fun k => ?_,
        fun k _ hk => absurd hk (Nat.not_lt_zero k), fun _ => rfl, fun hm => ?_⟩
      · rw [hq₃.freeMap, hbits]
        exact ⟨.inl, fun hor => hor.resolve_right (by omega)⟩
      · rw [hnone] at hm
        cases hm
    · obtain ⟨s₃, hcode₃, h₃, hreleased, -⟩ := h₂.release (hreserved rfl hsector)
      obtain ⟨s₄, hcode₄, -, hq₄, hkept₄⟩ := Ordered.dirClose (r := some a) h₃ (by
        rintro _ ⟨⟩
        exact hroot₂.of_table hreleased.table)
      rw [if_pos ⟨rfl, hsector⟩, hcode₃, some_bind, hcode₄, some_bind] at hcode
      cases hcode
      refine ⟨(KeepsOthers.of_table (hreleased.table.trans htable₂)).trans hkept₄, start, cnt,
        fun k => ?_, fun k hk hk' => (hleft.data k hk hk').1, hno, hyes⟩
      rw [hq₄.freeMap]
      exact hleft.release hreleased k

end Failed

/-- The state behind the attempt to create a file of one byte with an empty name on a fresh file
system. -/
def eightRefused : Fs :=
  ((eightFormatted.filesysCreate [0] 1 fun _ => 0).map Prod.fst).getD eightFormatted

theorem filesysCreate_eightFormatted :
    eightFormatted.filesysCreate [0] 1 (fun _ => 0) = some (eightRefused, false) := by
  have hfalse : (eightFormatted.filesysCreate [0] 1 fun _ => 0).map Prod.snd = some false := by
    decide +kernel
  obtain ⟨⟨s', ok⟩, hcode, rfl⟩ := Option.map_eq_some_iff.mp hfalse
  rw [eightRefused, hcode]
  rfl

end Pintos.Filesys
