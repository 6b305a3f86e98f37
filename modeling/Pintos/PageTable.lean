import Mathlib.Logic.Function.Basic
import Pintos.PagePools

/-!
# Page tables

`threads/pte.h`, and the functions of `userprog/pagedir.c` that read and change one entry.
A page directory is a page of 1024 words, each of which is zero or holds the address of a
page table, a page of 1024 words again.  A word holds the address of a page and, in the
bits that are zero in such an address, flags.

A directory is *valid* (`Valid`) if its tables are apart from each other and from it.  The
entry of a virtual page is then a variable of its own: **creating a table adds entries
that are zero and changes no other** (`Valid.create`), and **writing one entry changes no
other** (`Valid.store`).
-/

namespace Pintos
open Function (update update_of_ne update_self)

/-! ## Addresses and words -/

/-- `vtop`. -/
def vtop (vaddr : Nat) : Option Nat := do
  assert (physBase ≤ vaddr)
  some (vaddr - physBase)

/-- `pt_no`. -/
def ptNo (va : Nat) : Nat :=
  pgNo va % 1024

/-- `pd_no`. -/
def pdNo (va : Nat) : Nat :=
  pgNo va / 1024

/-- A page directory or page table entry. -/
abbrev Word := BitVec 32

/-- `PTE_ADDR`. -/
def pteAddr : Word := 0xfffff000

/-- `PTE_P`. -/
def pteP : Word := 0x1

/-- `PTE_W`. -/
def pteW : Word := 0x2

/-- `PTE_U`. -/
def pteU : Word := 0x4

/-- `PTE_A`. -/
def pteA : Word := 0x20

/-- `PTE_D`. -/
def pteD : Word := 0x40

/-- `pde_create`. -/
def pdeCreate (pt : Nat) : Option Word := do
  assert (pgOfs pt = 0)
  some (BitVec.ofNat 32 (← vtop pt) ||| pteU ||| pteP ||| pteW)

/-- `pde_get_pt`. -/
def pdeGetPt (pde : Word) : Option Nat := do
  assert (pde &&& pteP ≠ 0)
  ptov (pde &&& pteAddr).toNat

/-- `pte_create_kernel`. -/
def pteCreateKernel (page : Nat) (writable : Bool) : Option Word := do
  assert (pgOfs page = 0)
  some (BitVec.ofNat 32 (← vtop page) ||| pteP ||| if writable then pteW else 0)

/-- `pte_create_user`. -/
def pteCreateUser (page : Nat) (writable : Bool) : Option Word := do
  some ((← pteCreateKernel page writable) ||| pteU)

/-- `pte_get_page`. -/
def pteGetPage (pte : Word) : Option Nat :=
  ptov (pte &&& pteAddr).toNat

/-! ### Reading back a word -/

/-- The address of a page in the kernel's part of memory. -/
structure IsPage (p : Nat) : Prop where
  aligned : pgOfs p = 0
  kernel : physBase ≤ p
  lt : p < unsignedSize

theorem and_pteAddr_of_aligned {paddr : Nat} (h : paddr % pgsize = 0) :
    BitVec.ofNat 32 paddr &&& pteAddr = BitVec.ofNat 32 paddr := by
  have hmask : ∀ i : Fin 32, 12 ≤ i.val → pteAddr.getLsbD i = true := by decide
  obtain ⟨q, rfl⟩ : ∃ q, paddr = q * 2 ^ 12 := ⟨paddr / pgsize, by
    have := Nat.div_add_mod paddr pgsize
    rw [h] at this
    rw [pgsize] at *
    omega⟩
  refine BitVec.eq_of_getLsbD_eq fun i hi => ?_
  rw [BitVec.getLsbD_and]
  by_cases h12 : 12 ≤ i
  · rw [hmask ⟨i, hi⟩ h12, Bool.and_true]
  · have hzero : (BitVec.ofNat 32 (q * 2 ^ 12)).getLsbD i = false := by
      rw [BitVec.getLsbD_ofNat, Nat.testBit_mul_two_pow]
      simp [h12]
    rw [hzero, Bool.false_and]

/-- The flags do not reach into the address. -/
theorem toNat_and_pteAddr {p : Nat} (hp : IsPage p) {flags : Word} (hf : flags &&& pteAddr = 0#32) :
    ((BitVec.ofNat 32 (p - physBase) ||| flags) &&& pteAddr).toNat = p - physBase := by
  obtain ⟨haligned, hkernel, hlt⟩ := hp
  have hmod : (p - physBase) % pgsize = 0 := by
    rw [pgOfs, pgsize] at haligned
    rw [physBase, pgsize] at *
    omega
  rw [BitVec.and_or_distrib_right, hf, and_pteAddr_of_aligned hmod, BitVec.or_zero,
    BitVec.toNat_ofNat]
  rw [unsignedSize] at hlt
  omega

theorem vtop_eq {p : Nat} (hp : physBase ≤ p) : vtop p = some (p - physBase) := by
  rw [vtop, assert_of hp]
  rfl

theorem ptov_vtop {p : Nat} (hp : IsPage p) : ptov (p - physBase) = some p := by
  obtain ⟨-, hkernel, hlt⟩ := hp
  rw [ptov, assert_of (by rw [physBase, unsignedSize] at *; omega), Nat.sub_add_cancel hkernel,
    Nat.mod_eq_of_lt hlt]
  rfl

/-- The word `pde_create` makes. -/
def pdeWord (pt : Nat) : Word :=
  BitVec.ofNat 32 (pt - physBase) ||| 7

theorem pdeCreate_eq {pt : Nat} (hpt : IsPage pt) : pdeCreate pt = some (pdeWord pt) := by
  simp only [pdeCreate, assert_of hpt.aligned, vtop_eq hpt.kernel, some_bind, BitVec.or_assoc]
  rfl

theorem pdeWord_present (pt : Nat) : pdeWord pt &&& pteP = pteP := by
  rw [pdeWord, BitVec.and_or_distrib_right]
  refine BitVec.eq_of_getLsbD_eq fun i hi => ?_
  rw [BitVec.getLsbD_or, BitVec.getLsbD_and, show (7 : Word) &&& pteP = pteP by decide]
  cases pteP.getLsbD i <;> simp

theorem pdeWord_ne_zero (pt : Nat) : pdeWord pt ≠ 0 := by
  intro h
  have hne : (0 : Word) &&& pteP ≠ pteP := by decide
  exact hne (h ▸ pdeWord_present pt)

theorem pdeGetPt_of_present {pde : Word} (h : pde &&& pteP ≠ 0) :
    pdeGetPt pde = ptov (pde &&& pteAddr).toNat := by
  rw [pdeGetPt, assert_of h, some_bind]

theorem pdeGetPt_pdeWord {pt : Nat} (hpt : IsPage pt) : pdeGetPt (pdeWord pt) = some pt := by
  have hne : pdeWord pt &&& pteP ≠ 0 := by
    rw [pdeWord_present]
    decide
  rw [pdeGetPt_of_present hne, pdeWord, toNat_and_pteAddr hpt (by decide), ptov_vtop hpt]

theorem pdeWord_injective {p q : Nat} (hp : IsPage p) (hq : IsPage q) (h : pdeWord p = pdeWord q) :
    p = q := by
  have hget := pdeGetPt_pdeWord hp
  rw [h, pdeGetPt_pdeWord hq] at hget
  exact (Option.some.inj hget).symm

/-- What a word of a page table says: the page, if it is present. -/
def present (w : Word) : Option Nat :=
  if w &&& pteP = 0 then none else pteGetPage w

theorem present_of_absent {w : Word} (h : w &&& pteP = 0) : present w = none :=
  if_pos h

theorem present_of_present {w : Word} (h : w &&& pteP ≠ 0) : present w = pteGetPage w :=
  if_neg h

/-- An entry with a physical address names a page. -/
theorem pteGetPage_isSome {w : Word} (h : (w &&& pteAddr).toNat < physBase) :
    ∃ kpage, pteGetPage w = some kpage := by
  rw [pteGetPage, ptov, assert_of h]
  exact ⟨_, rfl⟩

section
variable {kpage : Nat} (hk : IsPage kpage)
include hk

/-- The word `pte_create_kernel` makes. -/
theorem pteCreateKernel_spec (writable : Bool) :
    ∃ w, pteCreateKernel kpage writable = some w ∧ (w &&& pteAddr).toNat = kpage - physBase := by
  simp only [pteCreateKernel, assert_of hk.aligned, vtop_eq hk.kernel, some_bind, BitVec.or_assoc]
  refine ⟨_, rfl, toNat_and_pteAddr hk ?_⟩
  cases writable <;> decide

/-- The word `pte_create_user` makes reads back as the page. -/
theorem pteCreateUser_spec (writable : Bool) :
    ∃ w, pteCreateUser kpage writable = some w ∧ present w = some kpage ∧
      (w &&& pteAddr).toNat = kpage - physBase := by
  simp only [pteCreateUser, pteCreateKernel, assert_of hk.aligned, vtop_eq hk.kernel, some_bind,
    BitVec.or_assoc]
  have haddr : ((BitVec.ofNat 32 (kpage - physBase) |||
      (pteP ||| ((if writable = true then pteW else 0) ||| pteU))) &&& pteAddr).toNat
        = kpage - physBase := by
    refine toNat_and_pteAddr hk ?_
    cases writable <;> decide
  refine ⟨_, rfl, ?_, haddr⟩
  rw [present_of_present, pteGetPage, haddr, ptov_vtop hk]
  intro hzero
  have hbit := congrArg (fun w : Word => w.getLsbD 0) hzero
  simp [pteP] at hbit

/-- The word `pte_create_user` makes says whether the page may be written. -/
theorem writable_of_pteCreateUser {writable : Bool} {w : Word}
    (h : pteCreateUser kpage writable = some w) : w &&& pteW ≠ 0 ↔ writable = true := by
  simp only [pteCreateUser, pteCreateKernel, assert_of hk.aligned, vtop_eq hk.kernel, some_bind,
    BitVec.or_assoc, Option.some.injEq] at h
  have hmod : (kpage - physBase) % pgsize = 0 := by
    have haligned := hk.aligned
    rw [pgOfs, pgsize] at haligned
    rw [physBase, pgsize] at *
    omega
  -- the address has no bits below those of a page
  have haddr : BitVec.ofNat 32 (kpage - physBase) &&& pteW = 0#32 := by
    rw [← and_pteAddr_of_aligned hmod, BitVec.and_assoc,
      show pteAddr &&& pteW = 0#32 by decide, BitVec.and_zero]
  rw [← h, BitVec.and_or_distrib_right, haddr, BitVec.zero_or]
  cases writable <;> decide

end

/-- Flags outside a mask can be set. -/
theorem or_and_mask {mask flag : Word} (h : flag &&& mask = 0#32) (w : Word) :
    (w ||| flag) &&& mask = w &&& mask := by
  rw [BitVec.and_or_distrib_right, h, BitVec.or_zero]

/-- Flags outside a mask can be cleared. -/
theorem andNot_and_mask {mask flag : Word} (h : ~~~flag &&& mask = mask) (w : Word) :
    (w &&& ~~~flag) &&& mask = w &&& mask := by
  rw [BitVec.and_assoc, h]

/-- `present` looks at the address and at `PTE_P`. -/
theorem present_congr {w w' : Word} (haddr : w &&& pteAddr = w' &&& pteAddr)
    (hp : w &&& pteP = w' &&& pteP) : present w = present w' := by
  rw [present, present, hp, pteGetPage, pteGetPage, haddr]

/-! ## Memory -/

/-- The pages of memory as arrays of words. -/
abbrev Tables := Nat → Nat → Word

namespace Tables

/-- `page[i] = w`. -/
def store (m : Tables) (page i : Nat) (w : Word) : Tables :=
  update m page (update (m page) i w)

/-- Every word of the page becomes `w`. -/
def fill (m : Tables) (page : Nat) (w : Word) : Tables :=
  update m page fun _ => w

variable {m : Tables} {page page' i j : Nat} {w : Word}

theorem store_self : m.store page i w page i = w := by
  rw [store, update_self, update_self]

theorem store_of_index_ne (h : j ≠ i) : m.store page i w page j = m page j := by
  rw [store, update_self, update_of_ne h]

theorem store_of_ne (h : page' ≠ page) : m.store page i w page' = m page' := by
  rw [store, update_of_ne h]

theorem fill_self : m.fill page w page i = w := by
  rw [fill, update_self]

theorem fill_of_ne (h : page' ≠ page) : m.fill page w page' = m page' := by
  rw [fill, update_of_ne h]

end Tables

/-! ## The code -/

/-- `lookup_page`: where the entry for an address is, and memory.  `palloc` is what
`palloc_get_page (PAL_ZERO)` returns. -/
def lookupPage (m : Tables) (pd vaddr : Nat) (create : Bool) (palloc : Option Nat) :
    Option (Tables × Option (Nat × Nat)) := do
  assert (pd ≠ 0)
  assert (create = false ∨ vaddr < physBase)
  if m pd (pdNo vaddr) = 0 then
    if create then
      match palloc with
      | none => some (m, none)
      | some pt =>
        let m := (m.fill pt 0).store pd (pdNo vaddr) (← pdeCreate pt)
        some (m, some (← pdeGetPt (m pd (pdNo vaddr)), ptNo vaddr))
    else
      some (m, none)
  else
    some (m, some (← pdeGetPt (m pd (pdNo vaddr)), ptNo vaddr))

/-- `pagedir_set_page`. -/
def pagedirSetPage (initRamPages initPageDir : Nat) (m : Tables) (pd upage kpage : Nat)
    (writable : Bool) (palloc : Option Nat) : Option (Tables × Bool) := do
  assert (pgOfs upage = 0)
  assert (pgOfs kpage = 0)
  assert (upage < physBase)
  assert (pgNo (← vtop kpage) < initRamPages)
  assert (pd ≠ initPageDir)
  match ← lookupPage m pd upage true palloc with
  | (m, none) => some (m, false)
  | (m, some (pt, i)) =>
    assert (m pt i &&& pteP = 0)
    some (m.store pt i (← pteCreateUser kpage writable), true)

/-- `pagedir_get_page`; the inner `none` is the null pointer. -/
def pagedirGetPage (m : Tables) (pd uaddr : Nat) : Option (Option Nat) := do
  assert (uaddr < physBase)
  match ← lookupPage m pd uaddr false none with
  | (_, none) => some none
  | (m, some (pt, i)) =>
    if m pt i &&& pteP ≠ 0 then
      some (some ((← pteGetPage (m pt i)) + pgOfs uaddr))
    else
      some none

/-- `pagedir_clear_page`. -/
def pagedirClearPage (m : Tables) (pd upage : Nat) : Option Tables := do
  assert (pgOfs upage = 0)
  assert (upage < physBase)
  match ← lookupPage m pd upage false none with
  | (m, none) => some m
  | (m, some (pt, i)) =>
    if m pt i &&& pteP ≠ 0 then
      some (m.store pt i (m pt i &&& ~~~pteP))
    else
      some m

/-- Sets or clears a flag in the entry for a page, if there is one. -/
def pagedirSetFlag (flag : Word) (m : Tables) (pd vpage : Nat) (value : Bool) : Option Tables := do
  match ← lookupPage m pd vpage false none with
  | (m, none) => some m
  | (m, some (pt, i)) =>
    some (m.store pt i (if value then m pt i ||| flag else m pt i &&& ~~~flag))

/-- `pagedir_set_dirty`. -/
def pagedirSetDirty : Tables → Nat → Nat → Bool → Option Tables :=
  pagedirSetFlag pteD

/-- `pagedir_set_accessed`. -/
def pagedirSetAccessed : Tables → Nat → Nat → Bool → Option Tables :=
  pagedirSetFlag pteA

/-! ## Valid directories -/

/-- How many pages there are. -/
def pageCount : Nat := 1048576

/-- The word for a virtual page, if it has a table. -/
def entry (m : Tables) (pd page : Nat) : Option Word :=
  if m pd (page / 1024) = 0 then none
  else (pdeGetPt (m pd (page / 1024))).map fun pt => m pt (page % 1024)

/-- The page that a virtual page is mapped to. -/
def mapping (m : Tables) (pd page : Nat) : Option Nat :=
  (entry m pd page).bind present

/-- The word for a virtual page, which is zero where there is no table. -/
def pageWord (m : Tables) (pd page : Nat) : Word :=
  (entry m pd page).getD 0

/-- **A valid directory**: its tables are pages, apart from each other and from it, and
hold physical addresses. -/
structure Valid (m : Tables) (pd : Nat) : Prop where
  page : IsPage pd
  table : ∀ i, i < 1024 → m pd i ≠ 0 → ∃ pt, IsPage pt ∧ pt ≠ pd ∧ m pd i = pdeWord pt
  apart : ∀ i j, i < 1024 → j < 1024 → m pd i ≠ 0 → m pd i = m pd j → i = j
  frame : ∀ page w, page < pageCount → entry m pd page = some w →
    (w &&& pteAddr).toNat < physBase

/-- A page that is not part of a directory. -/
structure Fresh (m : Tables) (pd pt : Nat) : Prop where
  page : IsPage pt
  ne : pt ≠ pd
  notTable : ∀ i, i < 1024 → m pd i ≠ pdeWord pt

section Entries
variable {m : Tables} {pd pt va page : Nat} {w : Word}

theorem entry_of_table (hpt : IsPage pt) (h : m pd (page / 1024) = pdeWord pt) :
    entry m pd page = some (m pt (page % 1024)) := by
  rw [entry, h, if_neg (pdeWord_ne_zero pt), pdeGetPt_pdeWord hpt, Option.map_some]

theorem entry_of_zero (h : m pd (page / 1024) = 0) : entry m pd page = none :=
  if_pos h

theorem mapping_of_entry (h : entry m pd page = some w) : mapping m pd page = present w := by
  rw [mapping, h, Option.bind_some]

theorem mapping_of_zero (h : m pd (page / 1024) = 0) : mapping m pd page = none := by
  rw [mapping, entry_of_zero h, Option.bind_none]

theorem pageWord_of_entry (h : entry m pd page = some w) : pageWord m pd page = w := by
  rw [pageWord, h, Option.getD_some]

theorem mapping_eq_present (m : Tables) (pd page : Nat) :
    mapping m pd page = present (pageWord m pd page) := by
  rw [mapping, pageWord]
  cases entry m pd page <;> rfl

theorem Valid.ne_zero (h : Valid m pd) : pd ≠ 0 := by
  have := h.page.kernel
  rw [physBase] at this
  omega

/-- A virtual page has no table, or a table that is a page. -/
theorem Valid.table_cases (h : Valid m pd) (hpage : page < pageCount) :
    m pd (page / 1024) = 0 ∨
      ∃ pt, IsPage pt ∧ pt ≠ pd ∧ m pd (page / 1024) = pdeWord pt := by
  refine or_iff_not_imp_left.mpr fun hne => h.table _ ?_ hne
  rw [pageCount] at hpage
  omega

/-- **Writing one entry changes no other.** -/
theorem Valid.store (h : Valid m pd) (hpage : page < pageCount) (hpt : IsPage pt)
    (htable : m pd (page / 1024) = pdeWord pt) (hw : (w &&& pteAddr).toNat < physBase) :
    Valid (m.store pt (page % 1024) w) pd ∧
      (m.store pt (page % 1024) w) pd = m pd ∧
      ∀ page', page' < pageCount → entry (m.store pt (page % 1024) w) pd page'
        = if page' = page then some w else entry m pd page' := by
  rw [pageCount] at hpage
  have hi : page / 1024 < 1024 := by omega
  have hne : pt ≠ pd := by
    obtain ⟨pt', hpt', hne', htable'⟩ := h.table _ hi (htable ▸ pdeWord_ne_zero pt)
    rwa [pdeWord_injective hpt hpt' (htable.symm.trans htable')]
  have hpd : (m.store pt (page % 1024) w) pd = m pd := Tables.store_of_ne hne.symm
  have hentry : ∀ page', page' < pageCount → entry (m.store pt (page % 1024) w) pd page'
      = if page' = page then some w else entry m pd page' := by
    intro page' hpage'
    rcases h.table_cases hpage' with hzero | ⟨pt', hpt', -, htable'⟩
    · rw [entry_of_zero (by rw [hpd, hzero]), entry_of_zero hzero, if_neg]
      rintro rfl
      exact pdeWord_ne_zero pt (htable.symm.trans hzero)
    · rw [entry_of_table hpt' (by rw [hpd, htable']), entry_of_table hpt' htable']
      by_cases heq : page' = page
      · subst heq
        obtain rfl : pt' = pt := pdeWord_injective hpt' hpt (htable'.symm.trans htable)
        rw [if_pos rfl, Tables.store_self]
      · rw [if_neg heq]
        by_cases hptEq : pt' = pt
        · -- the same table, so another index in it
          subst hptEq
          have hdiv := h.apart _ _ (by rw [pageCount] at hpage'; omega) hi
            (htable' ▸ pdeWord_ne_zero pt') (htable'.trans htable.symm)
          rw [Tables.store_of_index_ne (by omega)]
        · rw [Tables.store_of_ne hptEq]
  refine ⟨⟨h.page, ?_, ?_, fun page' w' hpage' hw' => ?_⟩, hpd, hentry⟩
  · rw [hpd]
    exact h.table
  · rw [hpd]
    exact h.apart
  · rw [hentry page' hpage'] at hw'
    split at hw'
    · exact Option.some.inj hw' ▸ hw
    · exact h.frame page' w' hpage' hw'

/-- **Creating a table adds entries that are zero and changes no other.** -/
theorem Valid.create (h : Valid m pd) (page : Nat) (hfresh : Fresh m pd pt) :
    let m' := (m.fill pt 0).store pd (page / 1024) (pdeWord pt)
    Valid m' pd ∧ m' pd (page / 1024) = pdeWord pt ∧
      (∀ i, i ≠ page / 1024 → m' pd i = m pd i) ∧
      ∀ page', page' < pageCount → entry m' pd page'
        = if page' / 1024 = page / 1024 then some 0 else entry m pd page' := by
  intro m'
  have hself : m' pd (page / 1024) = pdeWord pt := Tables.store_self
  have hother : ∀ i, i ≠ page / 1024 → m' pd i = m pd i := fun i hi =>
    (Tables.store_of_index_ne hi).trans (congrFun (Tables.fill_of_ne hfresh.ne.symm) i)
  have hnew : ∀ i, m' pt i = 0 := fun i => by
    rw [show m' pt = (m.fill pt 0) pt from Tables.store_of_ne hfresh.ne]
    exact Tables.fill_self
  have hkept : ∀ p, p ≠ pd → p ≠ pt → m' p = m p := fun p hpd hpt =>
    (Tables.store_of_ne hpd).trans (Tables.fill_of_ne hpt)
  have hentry : ∀ page', page' < pageCount → entry m' pd page'
      = if page' / 1024 = page / 1024 then some 0 else entry m pd page' := by
    intro page' hpage'
    split
    · rename_i heq
      rw [entry_of_table hfresh.page (by rw [heq, hself]), hnew]
    · rename_i hne
      rcases h.table_cases hpage' with hz | ⟨pt', hpt', hptne, htable'⟩
      · rw [entry_of_zero (by rw [hother _ hne, hz]), entry_of_zero hz]
      · rw [entry_of_table hpt' (by rw [hother _ hne, htable']), entry_of_table hpt' htable',
          hkept pt' hptne]
        rintro rfl
        exact hfresh.notTable _ (by rw [pageCount] at hpage'; omega) htable'
  refine ⟨⟨h.page, fun i hi hne => ?_, fun i j hi hj hne heq => ?_, fun page' w hp hw => ?_⟩,
    hself, hother, hentry⟩
  · by_cases hip : i = page / 1024
    · exact ⟨pt, hfresh.page, hfresh.ne, hip ▸ hself⟩
    · rw [hother i hip] at hne ⊢
      exact h.table i hi hne
  · by_cases hip : i = page / 1024
    · by_cases hjp : j = page / 1024
      · rw [hip, hjp]
      · rw [hip, hself, hother j hjp] at heq
        exact absurd heq.symm (hfresh.notTable j hj)
    · by_cases hjp : j = page / 1024
      · rw [hjp, hself, hother i hip] at heq
        exact absurd heq (hfresh.notTable i hi)
      · rw [hother i hip] at hne heq
        rw [hother j hjp] at heq
        exact h.apart i j hi hj hne heq
  · rw [hentry page' hp] at hw
    split at hw
    · rw [← Option.some.inj hw]
      decide
    · exact h.frame page' w hp hw

/-! ### The functions on a valid directory -/

theorem pgNo_lt (hva : va < unsignedSize) : pgNo va < pageCount := by
  rw [pgNo, pgsize, pageCount]
  rw [unsignedSize] at hva
  omega

/-- `lookup_page`, where it does not create a table. -/
theorem Valid.lookupPage_of_not_create (h : Valid m pd) (hva : va < unsignedSize) :
    (m pd (pgNo va / 1024) = 0 ∧ lookupPage m pd va false none = some (m, none)) ∨
      ∃ pt, IsPage pt ∧ m pd (pgNo va / 1024) = pdeWord pt ∧
        lookupPage m pd va false none = some (m, some (pt, pgNo va % 1024)) := by
  simp only [lookupPage, assert_of h.ne_zero, true_or, assert_of, some_bind, pdNo, ptNo]
  rcases h.table_cases (pgNo_lt hva) with hzero | ⟨pt, hpt, -, htable⟩
  · exact Or.inl ⟨hzero, by simp [hzero]⟩
  · refine Or.inr ⟨pt, hpt, htable, ?_⟩
    rw [htable, if_neg (pdeWord_ne_zero pt), pdeGetPt_pdeWord hpt]
    rfl

/-- **`pagedir_get_page`** returns what the page is mapped to. -/
theorem Valid.pagedirGetPage_eq (h : Valid m pd) (hva : va < physBase) :
    pagedirGetPage m pd va = some ((mapping m pd (pgNo va)).map (· + pgOfs va)) := by
  have hlt : va < unsignedSize := Nat.lt_trans hva (by decide)
  simp only [pagedirGetPage, assert_of hva, some_bind]
  rcases h.lookupPage_of_not_create hlt with ⟨hzero, hcode⟩ | ⟨pt, hpt, htable, hcode⟩
  · rw [hcode, mapping_of_zero hzero]
    rfl
  · have hentry := entry_of_table hpt htable
    simp only [hcode, some_bind, mapping_of_entry hentry]
    by_cases hp : m pt (pgNo va % 1024) &&& pteP = 0
    · rw [if_neg (fun hne => hne hp), present_of_absent hp, Option.map_none]
    · obtain ⟨kpage, hk⟩ := pteGetPage_isSome (h.frame _ _ (pgNo_lt hlt) hentry)
      rw [if_pos hp, present_of_present hp, hk, some_bind, Option.map_some]

/-- **`pagedir_clear_page`** unmaps the page. -/
theorem Valid.pagedirClearPage_spec (h : Valid m pd) (hofs : pgOfs va = 0) (hva : va < physBase) :
    ∃ m', pagedirClearPage m pd va = some m' ∧ Valid m' pd ∧
      (∀ page, page < pageCount → page ≠ pgNo va → entry m' pd page = entry m pd page) ∧
      mapping m' pd (pgNo va) = none := by
  have hlt : va < unsignedSize := Nat.lt_trans hva (by decide)
  simp only [pagedirClearPage, assert_of hofs, assert_of hva, some_bind]
  rcases h.lookupPage_of_not_create hlt with ⟨hzero, hcode⟩ | ⟨pt, hpt, htable, hcode⟩
  · exact ⟨m, by rw [hcode]; rfl, h, fun _ _ _ => rfl, mapping_of_zero hzero⟩
  · have hentry := entry_of_table hpt htable
    have hframe := h.frame _ _ (pgNo_lt hlt) hentry
    simp only [hcode, some_bind]
    by_cases hp : m pt (pgNo va % 1024) &&& pteP = 0
    · refine ⟨m, if_neg fun hne => hne hp, h, fun _ _ _ => rfl, ?_⟩
      rw [mapping_of_entry hentry, present_of_absent hp]
    · obtain ⟨hvalid, -, hentries⟩ := h.store (pgNo_lt hlt) hpt htable
        (show ((m pt (pgNo va % 1024) &&& ~~~pteP) &&& pteAddr).toNat < physBase by
          rwa [andNot_and_mask (by decide)])
      refine ⟨_, if_pos hp, hvalid, fun page hpage hne => ?_, ?_⟩
      · rw [hentries page hpage, if_neg hne]
      · have hcleared := (hentries _ (pgNo_lt hlt)).trans (if_pos rfl)
        rw [mapping_of_entry hcleared, present_of_absent]
        rw [BitVec.and_assoc, show ~~~pteP &&& pteP = 0#32 by decide, BitVec.and_zero]
        rfl

/-- **Setting or clearing a flag** changes that flag, in that entry. -/
theorem Valid.pagedirSetFlag_spec (h : Valid m pd) {flag : Word} (hflag : flag &&& pteAddr = 0#32)
    (hnot : ~~~flag &&& pteAddr = pteAddr) (hva : va < unsignedSize) (value : Bool) :
    ∃ m', pagedirSetFlag flag m pd va value = some m' ∧ Valid m' pd ∧
      ∀ page, page < pageCount →
        entry m' pd page = entry m pd page ∨
        ∃ w w', entry m pd page = some w ∧ entry m' pd page = some w' ∧
          (w' = w ||| flag ∨ w' = w &&& ~~~flag) := by
  simp only [pagedirSetFlag, Option.bind_eq_bind]
  rcases h.lookupPage_of_not_create hva with ⟨hzero, hcode⟩ | ⟨pt, hpt, htable, hcode⟩
  · exact ⟨m, by rw [hcode]; rfl, h, fun _ _ => Or.inl rfl⟩
  · have hentry := entry_of_table hpt htable
    have hframe := h.frame _ _ (pgNo_lt hva) hentry
    simp only [hcode]
    obtain ⟨hvalid, -, hentries⟩ := h.store (pgNo_lt hva) hpt htable
      (show ((if value = true then m pt (pgNo va % 1024) ||| flag
          else m pt (pgNo va % 1024) &&& ~~~flag) &&& pteAddr).toNat < physBase by
        cases value with
        | true => rwa [if_pos rfl, or_and_mask hflag]
        | false => rwa [if_neg Bool.false_ne_true, andNot_and_mask hnot])
    refine ⟨_, rfl, hvalid, fun page hpage => ?_⟩
    rw [hentries page hpage]
    by_cases heq : page = pgNo va
    · subst heq
      rw [if_pos rfl]
      refine Or.inr ⟨_, _, hentry, rfl, ?_⟩
      cases value with
      | true => exact Or.inl rfl
      | false => exact Or.inr rfl
    · exact Or.inl (if_neg heq)

/-- **The only change to the tables of a directory**, if any, is a new one with the index `i`,
where there was none. -/
def GainsTable (m m' : Tables) (pd i : Nat) (palloc : Option Nat) : Prop :=
  ∀ j, m' pd j = m pd j ∨ j = i ∧ m pd i = 0 ∧ ∃ pt ∈ palloc, m' pd j = pdeWord pt

/-- `lookup_page`, where it may create a table: it fails only without a table and without
memory for one, and the words for the pages stay as they are. -/
theorem Valid.lookupPage_of_create {palloc : Option Nat} (h : Valid m pd) (hva : va < physBase)
    (hfresh : ∀ pt ∈ palloc, Fresh m pd pt) :
    lookupPage m pd va true palloc = some (m, none) ∨
      ∃ m' pt, lookupPage m pd va true palloc = some (m', some (pt, pgNo va % 1024)) ∧
        Valid m' pd ∧ IsPage pt ∧ m' pd (pgNo va / 1024) = pdeWord pt ∧
        GainsTable m m' pd (pgNo va / 1024) palloc ∧
        (∀ page, page < pageCount → page / 1024 ≠ pgNo va / 1024 →
          entry m' pd page = entry m pd page) ∧
        ∀ page, page < pageCount → pageWord m' pd page = pageWord m pd page := by
  have hpage : pgNo va < pageCount := pgNo_lt (Nat.lt_trans hva (by decide))
  simp only [lookupPage, assert_of h.ne_zero, assert_of (show true = false ∨ va < physBase from
    Or.inr hva), some_bind, pdNo, ptNo]
  rcases h.table_cases hpage with hzero | ⟨pt, hpt, -, htable⟩
  · rw [if_pos hzero, if_pos trivial]
    cases palloc with
    | none => exact Or.inl rfl
    | some pt =>
      have hpt := hfresh pt rfl
      obtain ⟨hvalid, hself, hother, hentries⟩ := h.create (pgNo va) hpt
      simp only [pdeCreate_eq hpt.page, some_bind, hself, pdeGetPt_pdeWord hpt.page]
      refine Or.inr ⟨_, pt, rfl, hvalid, hpt.page, hself, fun i => ?_, fun page hlt' hne => ?_, ?_⟩
      · by_cases hi : i = pgNo va / 1024
        · exact Or.inr ⟨hi, hzero, pt, rfl, hi ▸ hself⟩
        · exact Or.inl (hother i hi)
      · rw [hentries page hlt', if_neg hne]
      · intro page hlt'
        have hentry := hentries page hlt'
        by_cases heq : page / 1024 = pgNo va / 1024
        · rw [if_pos heq] at hentry
          rw [pageWord_of_entry hentry, pageWord, entry_of_zero (by rw [heq, hzero]),
            Option.getD_none]
        · rw [if_neg heq] at hentry
          rw [pageWord, hentry, pageWord]
  · rw [htable, if_neg (pdeWord_ne_zero pt), pdeGetPt_pdeWord hpt, some_bind]
    exact Or.inr ⟨m, pt, rfl, h, hpt, htable, fun _ => Or.inl rfl, fun _ _ _ => rfl, fun _ _ => rfl⟩

/-- `pagedir_set_page`, once its arguments are checked. -/
theorem pagedirSetPage_eq {initRamPages initPageDir kpage paddr : Nat} {palloc : Option Nat}
    {writable : Bool} (hofs : pgOfs va = 0) (hk : pgOfs kpage = 0) (hva : va < physBase)
    (hvtop : vtop kpage = some paddr) (hram : pgNo paddr < initRamPages)
    (hinit : pd ≠ initPageDir) :
    pagedirSetPage initRamPages initPageDir m pd va kpage writable palloc = (do
      match ← lookupPage m pd va true palloc with
      | (m, none) => some (m, false)
      | (m, some (pt, i)) =>
        assert (m pt i &&& pteP = 0)
        some (m.store pt i (← pteCreateUser kpage writable), true)) := by
  simp only [pagedirSetPage, assert_of hofs, assert_of hk, assert_of hva, hvtop, assert_of hram,
    assert_of hinit, some_bind]

section SetPage
variable {initRamPages initPageDir kpage : Nat} {palloc : Option Nat}

section
variable (h : Valid m pd) (hofs : pgOfs va = 0) (hva : va < physBase) (hk : IsPage kpage)
  (hram : pgNo (kpage - physBase) < initRamPages) (hinit : pd ≠ initPageDir)
  (hunmapped : mapping m pd (pgNo va) = none) (hfresh : ∀ pt ∈ palloc, Fresh m pd pt)
  (writable : Bool)
include h hofs hva hk hram hinit hunmapped hfresh writable

/-- **`pagedir_set_page`** writes the word for the page, unless there is no table and none can
be allocated; then it does nothing. -/
theorem Valid.pagedirSetPage_word :
    pagedirSetPage initRamPages initPageDir m pd va kpage writable palloc = some (m, false) ∨
    ∃ m' w, pagedirSetPage initRamPages initPageDir m pd va kpage writable palloc
        = some (m', true) ∧ Valid m' pd ∧ GainsTable m m' pd (pgNo va / 1024) palloc ∧
      pteCreateUser kpage writable = some w ∧
      (∀ page, page < pageCount → page / 1024 ≠ pgNo va / 1024 →
        entry m' pd page = entry m pd page) ∧
      ∀ page, page < pageCount →
        pageWord m' pd page = if page = pgNo va then w else pageWord m pd page := by
  have hpage : pgNo va < pageCount := pgNo_lt (Nat.lt_trans hva (by decide))
  obtain ⟨w, hw, -, hwaddr⟩ := pteCreateUser_spec hk writable
  have hframe : (w &&& pteAddr).toNat < physBase := by
    rw [hwaddr]
    have := hk.lt
    rw [unsignedSize] at this
    rw [physBase]
    omega
  rw [pagedirSetPage_eq hofs hk.aligned hva (vtop_eq hk.kernel) hram hinit]
  rcases h.lookupPage_of_create hva hfresh with
    hnone | ⟨m', pt, hcode, hvalid, hpt, htable, hgains, hentries, hwords⟩
  · exact Or.inl (by simp only [hnone, some_bind])
  · right
    have hentry := entry_of_table hpt htable
    have hp : m' pt (pgNo va % 1024) &&& pteP = 0 := by
      by_contra hp
      obtain ⟨kpage', hk'⟩ := pteGetPage_isSome (hvalid.frame _ _ hpage hentry)
      rw [mapping_eq_present, ← hwords _ hpage, pageWord_of_entry hentry, present_of_present hp,
        hk'] at hunmapped
      cases hunmapped
    obtain ⟨hvalid', hpd, hentries'⟩ := hvalid.store hpage hpt htable hframe
    simp only [hcode, assert_of hp, hw, some_bind]
    refine ⟨_, w, rfl, hvalid', fun i => ?_, rfl, fun page hlt hne => ?_, fun page hlt => ?_⟩
    · rw [congrFun hpd i]
      exact hgains i
    · rw [hentries' page hlt, if_neg (fun heq => hne (by rw [heq])), hentries page hlt hne]
    · have hentry' := hentries' page hlt
      by_cases heq : page = pgNo va
      · rw [if_pos heq] at hentry' ⊢
        exact pageWord_of_entry hentry'
      · rw [if_neg heq] at hentry' ⊢
        rw [← hwords page hlt, pageWord, hentry', pageWord]

/-- **`pagedir_set_page`** maps the page. -/
theorem Valid.pagedirSetPage_spec :
    pagedirSetPage initRamPages initPageDir m pd va kpage writable palloc = some (m, false) ∨
    ∃ m', pagedirSetPage initRamPages initPageDir m pd va kpage writable palloc
        = some (m', true) ∧ Valid m' pd ∧
      (∀ page, page < pageCount → page / 1024 ≠ pgNo va / 1024 →
        entry m' pd page = entry m pd page) ∧
      ∀ page, page < pageCount →
        mapping m' pd page = if page = pgNo va then some kpage else mapping m pd page := by
  obtain ⟨w, hw, hpresent, -⟩ := pteCreateUser_spec hk writable
  refine (h.pagedirSetPage_word hofs hva hk hram hinit hunmapped hfresh writable).imp_right ?_
  rintro ⟨m', w', hcode, hvalid, -, hw', hentries, hwords⟩
  obtain rfl : w = w' := Option.some.inj (hw.symm.trans hw')
  refine ⟨m', hcode, hvalid, hentries, fun page hlt => ?_⟩
  rw [mapping_eq_present, hwords page hlt, mapping_eq_present]
  split
  · exact hpresent
  · rfl

end

end SetPage

end Entries
end Pintos
