import Pintos.PageTable
import Pintos.TransitionSystem

/-!
# Page directories

A page directory from its creation to its end: `paging_init` makes the directory of the
kernel, `pagedir_create` copies it, the functions of `PageTable` change it, and
`pagedir_destroy` frees its pages.  Which pages `palloc_get_page` returns is left open; it
is only assumed not to return one that is part of the directory.

**A directory is a partial map of user pages** (`pagedir_refines_map`): a page is mapped to
what the last successful `pagedir_set_page` or `pagedir_clear_page` for it says, kernel
pages stay mapped as they were, and destroying the directory frees every page in it once,
if the pages are all different.
-/

namespace Pintos
open List
open Tables (fill_self fill_of_ne store_self store_of_ne)

/-! ## The code -/

/-- The loop of `paging_init` makes sure that there is a table.  With memory come the table
of the page before and the pages that `palloc_get_page` will return; `PAL_ASSERT` makes it
panic if there is none. -/
def pagingInitTable (pd pdeIdx : Nat) : Tables × Nat × List Nat → Option (Tables × Nat × List Nat)
  | (m, pt, palloc) =>
    if m pd pdeIdx = 0 then
      match palloc with
      | [] => none
      | pt :: palloc => do
        some ((m.fill pt 0).store pd pdeIdx (← pdeCreate pt), pt, palloc)
    else
      some (m, pt, palloc)

section Boot
variable (inKernelText : Nat → Bool)

/-- A round of the loop of `paging_init`. -/
def pagingInitPage (pd : Nat) (s : Tables × Nat × List Nat) (page : Nat) :
    Option (Tables × Nat × List Nat) := do
  let vaddr ← ptov (page * pgsize % unsignedSize)
  let (m, pt, palloc) ← pagingInitTable pd (pdNo vaddr) s
  some (m.store pt (ptNo vaddr) (← pteCreateKernel vaddr !inKernelText vaddr), pt, palloc)

/-- `paging_init`, up to the activation of the directory: memory and `init_page_dir`. -/
def pagingInit (initRamPages : Nat) (m : Tables) (palloc : List Nat) : Option (Tables × Nat) := do
  match palloc with
  | [] => none
  | pd :: palloc =>
    let (m, _, _) ←
      (List.range initRamPages).foldlM (pagingInitPage inKernelText pd) (m.fill pd 0, 0, palloc)
    some (m, pd)

end Boot

/-- `pagedir_create`. -/
def pagedirCreate (m : Tables) (initPageDir : Nat) (palloc : Option Nat) : Tables × Option Nat :=
  match palloc with
  | none => (m, none)
  | some pd => (Function.update m pd (m initPageDir), some pd)

/-- `palloc_free_page`, as far as it matters here: the page is overwritten, and is one more
that has been freed. -/
def pallocFreePage (s : Tables × List Nat) (page : Nat) : Tables × List Nat :=
  (s.1.fill page 0xcccccccc, s.2 ++ [page])

/-- The page of an entry of a table is freed. -/
def destroyEntry (pt : Nat) (s : Tables × List Nat) (i : Nat) : Option (Tables × List Nat) := do
  if s.1 pt i &&& pteP ≠ 0 then
    some (pallocFreePage s (← pteGetPage (s.1 pt i)))
  else
    some s

/-- The pages of a table are freed, and the table. -/
def destroyTable (pd : Nat) (s : Tables × List Nat) (i : Nat) : Option (Tables × List Nat) := do
  if s.1 pd i &&& pteP ≠ 0 then
    let pt ← pdeGetPt (s.1 pd i)
    let s ← (List.range 1024).foldlM (destroyEntry pt) s
    some (pallocFreePage s pt)
  else
    some s

/-- `pagedir_destroy`: memory, and the pages that are freed. -/
def pagedirDestroy (initPageDir : Nat) (m : Tables) (pd : Nat) : Option (Tables × List Nat) := do
  if pd = 0 then
    some (m, [])
  else
    assert (pd ≠ initPageDir)
    let s ← (List.range (pdNo physBase)).foldlM (destroyTable pd) (m, [])
    some (pallocFreePage s pd)

/-! ## The directory of the kernel -/

/-- The first page of the kernel. -/
def kernelPage : Nat := 786432

theorem isPage_ptov {page : Nat} (h : page < 16384) :
    ptov (page * pgsize % unsignedSize) = some (physBase + page * pgsize) ∧
      IsPage (physBase + page * pgsize) ∧
      pgNo (physBase + page * pgsize) = kernelPage + page := by
  have hmod : page * pgsize % unsignedSize = page * pgsize :=
    Nat.mod_eq_of_lt (by rw [pgsize, unsignedSize]; omega)
  refine ⟨?_, ⟨?_, Nat.le_add_right _ _, ?_⟩, ?_⟩
  · rw [hmod, ptov_eq (Nat.mul_le_mul_right _ (Nat.le_of_lt h))]
  · rw [pgOfs, physBase, pgsize]
    omega
  · rw [physBase, pgsize, unsignedSize]
    omega
  · rw [pgNo, physBase, pgsize, kernelPage]
    omega

/-- **The invariant of the loop of `paging_init`**, before page `page`: there are tables for
the kernel's pages so far, the last of which is `pt`, and enough pages for more. -/
structure Booting (initRamPages pd : Nat) (pages : List Nat) (page : Nat)
    (s : Tables × Nat × List Nat) : Prop where
  valid : Valid s.1 pd
  user : ∀ i, i < 768 → s.1 pd i = 0
  ahead : ∀ i, i < 1024 → s.1 pd i ≠ 0 → i < 768 + (page + 1023) / 1024
  current : 0 < page → IsPage s.2.1 ∧ s.1 pd (768 + (page - 1) / 1024) = pdeWord s.2.1
  tables : ∀ i, i < 1024 → s.1 pd i ≠ 0 → ∃ p ∈ pages, s.1 pd i = pdeWord p
  palloc : ∀ p ∈ s.2.2, p ∈ pages
  fresh : ∀ p ∈ s.2.2, Fresh s.1 pd p
  nodup : s.2.2.Nodup
  enough : (initRamPages + 1023) / 1024 ≤ (page + 1023) / 1024 + s.2.2.length

section Boot
variable {inKernelText : Nat → Bool} {initRamPages pd page : Nat} {pages : List Nat}
  {s : Tables × Nat × List Nat}

/-- An empty directory. -/
theorem valid_fill {m : Tables} (hpd : IsPage pd) : Valid (m.fill pd 0) pd := by
  have hzero : ∀ i, m.fill pd 0 pd i = 0 := fun i => fill_self
  refine ⟨hpd, fun i _ hne => absurd (hzero i) hne, fun i j _ _ hne => absurd (hzero i) hne,
    fun page w _ hw => ?_⟩
  rw [entry_of_zero (hzero _)] at hw
  cases hw

theorem Fresh.of_fill {m : Tables} {p : Nat} (hp : IsPage p) (hne : p ≠ pd) :
    Fresh (m.fill pd 0) pd p :=
  ⟨hp, hne, fun _ _ h => pdeWord_ne_zero p (h.symm.trans fill_self)⟩

/-- The page gets an entry in its table. -/
theorem Booting.store {w : Word} (h : Booting initRamPages pd pages (page + 1) s)
    (hpage : page < 16384) (hw : (w &&& pteAddr).toNat < physBase) :
    Booting initRamPages pd pages (page + 1)
      (s.1.store s.2.1 ((kernelPage + page) % 1024) w, s.2.1, s.2.2) := by
  obtain ⟨hpt, htable⟩ := h.current (Nat.succ_pos page)
  have hdiv : (kernelPage + page) / 1024 = 768 + page / 1024 := by
    rw [kernelPage]
    omega
  have hcount : kernelPage + page < pageCount := by
    rw [kernelPage, pageCount]
    omega
  obtain ⟨hvalid, hpd, -⟩ := h.valid.store hcount hpt (by rw [hdiv]; exact htable) hw
  refine ⟨hvalid, fun i hi => ?_, fun i hi hne => h.ahead i hi ?_, fun _ => ⟨hpt, ?_⟩,
    fun i hi hne => ?_, h.palloc, fun p hp => ?_, h.nodup, h.enough⟩
  · exact (congrFun hpd i).trans (h.user i hi)
  · rwa [← congrFun hpd i]
  · exact (congrFun hpd _).trans htable
  · obtain ⟨p, hp, hword⟩ := h.tables i hi (by rwa [← congrFun hpd i])
    exact ⟨p, hp, (congrFun hpd i).trans hword⟩
  · obtain ⟨hpage', hne, hnot⟩ := h.fresh p hp
    exact ⟨hpage', hne, fun i hi heq => hnot i hi ((congrFun hpd i).symm.trans heq)⟩

section
variable (h : Booting initRamPages pd pages page s) (hpage : page < initRamPages)
include h hpage

/-- The page gets a table, a new one or that of the page before. -/
theorem Booting.table (hlt : page < 16384) :
    ∃ s', pagingInitTable pd (768 + page / 1024) s = some s' ∧
      Booting initRamPages pd pages (page + 1) s' := by
  obtain ⟨m, pt, palloc⟩ := s
  unfold pagingInitTable
  have henough := h.enough
  by_cases hzero : m pd (768 + page / 1024) = 0
  · have hfull : page % 1024 = 0 := by
      by_contra hne
      obtain ⟨-, hprev⟩ := h.current (by omega)
      rw [show (page - 1) / 1024 = page / 1024 by omega] at hprev
      exact pdeWord_ne_zero pt (hprev.symm.trans hzero)
    cases palloc with
    | nil =>
      simp only [length_nil] at henough
      omega
    | cons pt' palloc =>
      have hpt' := h.fresh pt' mem_cons_self
      have hindex : (kernelPage + page) / 1024 = 768 + page / 1024 := by
        rw [kernelPage]
        omega
      obtain ⟨hvalid, hself, hother, -⟩ := h.valid.create (kernelPage + page) hpt'
      simp only [hindex] at hvalid hself hother
      obtain ⟨hnotMem, hnodup⟩ := nodup_cons.mp h.nodup
      refine ⟨((m.fill pt' 0).store pd (768 + page / 1024) (pdeWord pt'), pt', palloc), by
        simp only [if_pos hzero, pdeCreate_eq hpt'.page, some_bind],
        hvalid, fun i hi => ?_, fun i hi hne => ?_, fun _ => ⟨hpt'.page, hself⟩,
        fun i hi hne => ?_, fun p hp => h.palloc p (mem_cons_of_mem pt' hp), fun p hp => ?_,
        hnodup, ?_⟩
      · exact (hother i (by omega)).trans (h.user i hi)
      · by_cases hi' : i = 768 + page / 1024
        · omega
        · have := h.ahead i hi fun hz => hne ((hother i hi').trans hz)
          omega
      · by_cases hi' : i = 768 + page / 1024
        · subst hi'
          exact ⟨pt', h.palloc pt' mem_cons_self, hself⟩
        · obtain ⟨p, hp, hword⟩ := h.tables i hi fun hz => hne ((hother i hi').trans hz)
          exact ⟨p, hp, (hother i hi').trans hword⟩
      · obtain ⟨hpage', hne, hnot⟩ := h.fresh p (mem_cons_of_mem pt' hp)
        refine ⟨hpage', hne, fun i hi heq => ?_⟩
        by_cases hi' : i = 768 + page / 1024
        · subst hi'
          exact hnotMem (pdeWord_injective hpt'.page hpage' (hself.symm.trans heq) ▸ hp)
        · exact hnot i hi ((hother i hi').symm.trans heq)
      · simp only [length_cons] at henough
        show _ ≤ (page + 1 + 1023) / 1024 + palloc.length
        omega
  · have hahead := h.ahead _ (by omega) hzero
    obtain ⟨hpt, hprev⟩ := h.current (by omega)
    refine ⟨(m, pt, palloc), if_neg hzero, h.valid, h.user, fun i hi hne => ?_,
      fun _ => ⟨hpt, ?_⟩, h.tables, h.palloc, h.fresh, h.nodup, ?_⟩
    · have := h.ahead i hi hne
      omega
    · rw [show page + 1 - 1 = page by omega, show page / 1024 = (page - 1) / 1024 by omega]
      exact hprev
    · show _ ≤ (page + 1 + 1023) / 1024 + palloc.length
      simp only at henough
      omega

/-- **A round of the loop.** -/
theorem Booting.step (hram : initRamPages ≤ 16384) :
    ∃ s', pagingInitPage inKernelText pd s page = some s' ∧
      Booting initRamPages pd pages (page + 1) s' := by
  have hlt : page < 16384 := Nat.lt_of_lt_of_le hpage hram
  obtain ⟨hptov, hkpage, hpgNo⟩ := isPage_ptov hlt
  obtain ⟨w, hw, hwaddr⟩ := pteCreateKernel_spec hkpage !inKernelText (physBase + page * pgsize)
  have hframe : (w &&& pteAddr).toNat < physBase := by
    rw [hwaddr, physBase, pgsize]
    omega
  have hdiv : pdNo (physBase + page * pgsize) = 768 + page / 1024 := by
    rw [pdNo, hpgNo, kernelPage]
    omega
  have hmod : ptNo (physBase + page * pgsize) = (kernelPage + page) % 1024 := by
    rw [ptNo, hpgNo]
  generalize physBase + page * pgsize = vaddr at hptov hw hdiv hmod
  obtain ⟨s', hcode, h'⟩ := h.table hpage hlt
  refine ⟨_, ?_, h'.store hlt hframe⟩
  simp only [pagingInitPage, hptov, hdiv, hmod, hcode, hw, some_bind]

end

/-- **`paging_init`** makes a directory without user pages, if it gets enough pages. -/
theorem pagingInit_spec (inKernelText : Nat → Bool) {palloc : List Nat} (m : Tables)
    (hram : initRamPages ≤ 16384)
    (hpages : ∀ p ∈ pd :: palloc, IsPage p) (hnodup : (pd :: palloc).Nodup)
    (henough : (initRamPages + 1023) / 1024 ≤ palloc.length) :
    ∃ m', pagingInit inKernelText initRamPages m (pd :: palloc) = some (m', pd) ∧ Valid m' pd ∧
      (∀ i, i < 768 → m' pd i = 0) ∧
      ∀ i, i < 1024 → m' pd i ≠ 0 → ∃ p ∈ palloc, m' pd i = pdeWord p := by
  have hpd := hpages pd mem_cons_self
  obtain ⟨hnotMem, hrest⟩ := nodup_cons.mp hnodup
  have hstart : Booting initRamPages pd palloc 0 (m.fill pd 0, 0, palloc) := by
    refine ⟨valid_fill hpd, fun _ _ => fill_self, fun _ _ hne =>
      absurd fill_self hne, fun h => absurd h (Nat.lt_irrefl 0), fun _ _ hne =>
      absurd fill_self hne, fun _ hp => hp, fun p hp => ?_, hrest, ?_⟩
    · exact Fresh.of_fill (hpages p (mem_cons_of_mem pd hp)) fun heq => hnotMem (heq ▸ hp)
    · exact Nat.le_trans henough (Nat.le_add_left _ _)
  obtain ⟨s, hcode, hs⟩ := foldlM_range initRamPages hstart fun page s hlt hs =>
    Booting.step hs hlt hram
  exact ⟨s.1, by rw [pagingInit, hcode]; rfl, hs.valid, hs.user, hs.tables⟩

end Boot

/-- **`pagedir_create`** makes a directory with the same entries. -/
theorem Valid.pagedirCreate_spec {m : Tables} {initPageDir pd : Nat} (h : Valid m initPageDir)
    (hpd : Fresh m initPageDir pd) :
    let m' := (pagedirCreate m initPageDir (some pd)).1
    Valid m' pd ∧ m' pd = m initPageDir := by
  intro m'
  have hself : m' pd = m initPageDir := Function.update_self _ _ _
  have hentry : ∀ page, page < pageCount → entry m' pd page = entry m initPageDir page := by
    intro page hpage
    rcases h.table_cases hpage with hzero | ⟨pt, hpt, -, htable⟩
    · rw [entry_of_zero (by rw [hself, hzero]), entry_of_zero hzero]
    · have hne : pt ≠ pd := by
        rintro rfl
        exact hpd.notTable _ (by rw [pageCount] at hpage; omega) htable
      rw [entry_of_table hpt (by rw [hself, htable]), entry_of_table hpt htable,
        show m' pt = m pt from Function.update_of_ne hne _ _]
  refine ⟨⟨hpd.page, fun i hi hne => ?_, ?_, fun page w hpage hw => ?_⟩, hself⟩
  · rw [hself] at hne ⊢
    obtain ⟨pt, hpt, -, htable⟩ := h.table i hi hne
    exact ⟨pt, hpt, fun heq => hpd.notTable i hi (heq ▸ htable), htable⟩
  · rw [hself]
    exact h.apart
  · exact h.frame page w hpage ((hentry page hpage).symm.trans hw)

/-! ## Destroying a directory -/

/-- The table with the given index. -/
def pageTable (m : Tables) (pd i : Nat) : Option Nat :=
  if m pd i = 0 then none else pdeGetPt (m pd i)

/-- The pages of the first `k` entries of a table. -/
def tablePages (m : Tables) (pd i k : Nat) : List Nat :=
  (List.range k).filterMap fun j => mapping m pd (i * 1024 + j)

/-- The pages of the first `k` tables, and the tables. -/
def directoryPages (m : Tables) (pd k : Nat) : List Nat :=
  (List.range k).flatMap fun i => tablePages m pd i 1024 ++ (pageTable m pd i).toList

section Destroy
variable {m : Tables} {pd pt i j k : Nat} {s : Tables × List Nat}

/-- No page that is mapped is the directory or one of its tables. -/
def PagesApart (m : Tables) (pd : Nat) : Prop :=
  ∀ page kpage, page < kernelPage → mapping m pd page = some kpage →
    kpage ≠ pd ∧ ∀ i, i < 768 → pageTable m pd i ≠ some kpage

/-- **The invariant of `pagedir_destroy`**: what is to be read from the directory and from
the tables from `k` on is as it was. -/
structure Unread (m : Tables) (pd k : Nat) (s : Tables) : Prop where
  directory : s pd = m pd
  table : ∀ i pt, k ≤ i → i < 768 → pageTable m pd i = some pt → s pt = m pt

theorem Unread.fill (h : Unread m pd k s.1) {p : Nat} {w : Word} (hpd : p ≠ pd)
    (htable : ∀ i, k ≤ i → i < 768 → pageTable m pd i ≠ some p) :
    Unread m pd k (s.1.fill p w) := by
  refine ⟨(fill_of_ne hpd.symm).trans h.directory, fun i pt hk hi hpt => ?_⟩
  refine (fill_of_ne ?_).trans (h.table i pt hk hi hpt)
  rintro rfl
  exact htable i hk hi hpt

theorem pageTable_of_table (hpt : IsPage pt) (h : m pd i = pdeWord pt) :
    pageTable m pd i = some pt := by
  rw [pageTable, h, if_neg (pdeWord_ne_zero pt), pdeGetPt_pdeWord hpt]

/-- The word for a table. -/
theorem Valid.word_of_pageTable (h : Valid m pd) (hi : i < 1024)
    (hpt : pageTable m pd i = some pt) : IsPage pt ∧ pt ≠ pd ∧ m pd i = pdeWord pt := by
  have hne : m pd i ≠ 0 := fun hzero => by
    rw [pageTable, if_pos hzero] at hpt
    cases hpt
  obtain ⟨pt', hpt', hptne, htable⟩ := h.table i hi hne
  rw [pageTable_of_table hpt' htable] at hpt
  cases hpt
  exact ⟨hpt', hptne, htable⟩

/-- A table is in one place only. -/
theorem Valid.pageTable_inj (h : Valid m pd) (hi : i < 1024) (hj : j < 1024)
    (hipt : pageTable m pd i = some pt) (hjpt : pageTable m pd j = some pt) : i = j := by
  have hword := (h.word_of_pageTable hi hipt).2.2
  refine h.apart i j hi hj ?_ (hword.trans (h.word_of_pageTable hj hjpt).2.2.symm)
  rw [hword]
  exact pdeWord_ne_zero pt

theorem tablePages_succ : tablePages m pd i (k + 1)
    = tablePages m pd i k ++ (mapping m pd (i * 1024 + k)).toList := by
  rw [tablePages, tablePages, range_succ, filterMap_append]
  cases h : mapping m pd (i * 1024 + k) <;> simp [h]

theorem directoryPages_succ : directoryPages m pd (k + 1)
    = directoryPages m pd k ++ (tablePages m pd k 1024 ++ (pageTable m pd k).toList) := by
  rw [directoryPages, directoryPages, range_succ, flatMap_append,
    flatMap_singleton]

/-- A turn of the inner loop. -/
theorem destroyEntry_spec (h : Valid m pd) (happart : PagesApart m pd) (hi : i < 768)
    (hpt : IsPage pt) (htable : m pd i = pdeWord pt) (hj : j < 1024) {freed : List Nat}
    (hs : Unread m pd i s.1 ∧ s.2 = freed ++ tablePages m pd i j) :
    ∃ s', destroyEntry pt s j = some s' ∧ Unread m pd i s'.1 ∧
      s'.2 = freed ++ tablePages m pd i (j + 1) := by
  obtain ⟨hunread, hfreed⟩ := hs
  have hdiv : (i * 1024 + j) / 1024 = i := by omega
  have hmod : (i * 1024 + j) % 1024 = j := by omega
  have hentry : entry m pd (i * 1024 + j) = some (m pt j) := by
    rw [entry_of_table hpt (by rw [hdiv, htable]), hmod]
  have hread : s.1 pt j = m pt j :=
    congrFun (hunread.table i pt (Nat.le_refl i) hi (pageTable_of_table hpt htable)) j
  rw [destroyEntry, hread, tablePages_succ, mapping_of_entry hentry]
  by_cases hp : m pt j &&& pteP = 0
  · refine ⟨s, if_neg (fun hne => hne hp), hunread, ?_⟩
    rw [present_of_absent hp, Option.toList_none, append_nil, hfreed]
  · obtain ⟨kpage, hk⟩ := pteGetPage_isSome
      (h.frame (i * 1024 + j) _ (by rw [pageCount]; omega) hentry)
    have hmapped : mapping m pd (i * 1024 + j) = some kpage := by
      rw [mapping_of_entry hentry, present_of_present hp, hk]
    obtain ⟨hne, hnot⟩ := happart _ kpage (by rw [kernelPage]; omega) hmapped
    rw [if_pos hp, hk, present_of_present hp, hk]
    refine ⟨pallocFreePage s kpage, rfl, hunread.fill hne fun i' _ hi' => hnot i' hi', ?_⟩
    rw [pallocFreePage, hfreed, append_assoc]
    rfl

/-- A turn of the outer loop. -/
theorem destroyTable_spec (h : Valid m pd) (happart : PagesApart m pd) (hi : i < 768)
    (hs : Unread m pd i s.1 ∧ s.2 = directoryPages m pd i) :
    ∃ s', destroyTable pd s i = some s' ∧ Unread m pd (i + 1) s'.1 ∧
      s'.2 = directoryPages m pd (i + 1) := by
  obtain ⟨hunread, hfreed⟩ := hs
  rw [destroyTable, congrFun hunread.directory i]
  by_cases hzero : m pd i = 0
  · have hnone : tablePages m pd i 1024 = [] := by
      refine filterMap_eq_nil_iff.mpr fun j hj => mapping_of_zero ?_
      rw [mem_range] at hj
      rwa [show (i * 1024 + j) / 1024 = i by omega]
    refine ⟨s, by rw [hzero]; rfl, ⟨hunread.directory, fun i' pt hle hlt hpt =>
      hunread.table i' pt (by omega) hlt hpt⟩, ?_⟩
    rw [directoryPages_succ, hnone, pageTable, if_pos hzero, hfreed]
    simp
  · obtain ⟨pt, hpt, hptne, htable⟩ := h.table i (by omega) hzero
    have hne : pdeWord pt &&& pteP ≠ 0 := by
      rw [pdeWord_present]
      decide
    obtain ⟨s', hloop, hunread', hfreed'⟩ := foldlM_range
      (P := fun j (s : Tables × List Nat) =>
        Unread m pd i s.1 ∧ s.2 = directoryPages m pd i ++ tablePages m pd i j) 1024
      (show Unread m pd i s.1 ∧ s.2 = directoryPages m pd i ++ tablePages m pd i 0 from
        ⟨hunread, by rw [hfreed]; simp [tablePages]⟩)
      fun j s hj hs => destroyEntry_spec h happart hi hpt htable hj hs
    rw [htable, if_pos hne, pdeGetPt_pdeWord hpt]
    refine ⟨pallocFreePage s' pt, by rw [some_bind, hloop]; rfl, ?_, ?_⟩
    · refine Unread.fill (s := s') ⟨hunread'.directory, fun i' pt' hle hlt hpt' =>
        hunread'.table i' pt' (by omega) hlt hpt'⟩ hptne fun i' hle hlt hpt' => ?_
      have := h.pageTable_inj (by omega) (by omega) hpt' (pageTable_of_table hpt htable)
      omega
    · rw [directoryPages_succ, pageTable_of_table hpt htable, pallocFreePage, hfreed',
        append_assoc]
      rfl

/-- **`pagedir_destroy`** frees the pages and tables in order, and then the directory. -/
theorem pagedirDestroy_spec {initPageDir : Nat} (h : Valid m pd) (hinit : pd ≠ initPageDir)
    (happart : PagesApart m pd) :
    ∃ m', pagedirDestroy initPageDir m pd = some (m', directoryPages m pd 768 ++ [pd]) := by
  obtain ⟨s, hloop, -, hfreed⟩ := foldlM_range
    (P := fun i (s : Tables × List Nat) => Unread m pd i s.1 ∧ s.2 = directoryPages m pd i)
    (s := (m, [])) 768
    ⟨⟨rfl, fun _ _ _ _ _ => rfl⟩, rfl⟩ fun i s hi hs => destroyTable_spec h happart hi hs
  refine ⟨s.1.fill pd 0xcccccccc, ?_⟩
  have hcount : pdNo physBase = 768 := by decide
  simp only [pagedirDestroy, if_neg h.ne_zero, assert_of hinit, hcount, hloop, some_bind]
  rw [pallocFreePage, hfreed]

theorem mem_tablePages {x : Nat} :
    x ∈ tablePages m pd i k ↔ ∃ j, j < k ∧ mapping m pd (i * 1024 + j) = some x := by
  simp [tablePages]

theorem mem_directoryPages {x : Nat} : x ∈ directoryPages m pd k ↔
    (∃ page, page < k * 1024 ∧ mapping m pd page = some x) ∨
      ∃ i, i < k ∧ pageTable m pd i = some x := by
  simp only [directoryPages, mem_flatMap, mem_range, mem_append, mem_tablePages,
    Option.mem_toList]
  constructor
  · rintro ⟨i, hi, ⟨j, hj, hmap⟩ | htable⟩
    · exact Or.inl ⟨i * 1024 + j, by omega, hmap⟩
    · exact Or.inr ⟨i, hi, htable⟩
  · rintro (⟨page, hpage, hmap⟩ | ⟨i, hi, htable⟩)
    · refine ⟨page / 1024, by omega, Or.inl ⟨page % 1024, by omega, ?_⟩⟩
      rwa [show page / 1024 * 1024 + page % 1024 = page by omega]
    · exact ⟨i, hi, Or.inr htable⟩

section Nodup
variable (honce : ∀ page page' kpage, page < kernelPage →
  page' < kernelPage → mapping m pd page = some kpage → mapping m pd page' = some kpage →
    page = page')
include honce

theorem nodup_tablePages (hi : i < 768) (hk : k ≤ 1024) : (tablePages m pd i k).Nodup := by
  induction k with
  | zero => exact nodup_nil
  | succ k ih =>
    rw [tablePages_succ]
    refine nodup_append.mpr ⟨ih (by omega), ?_, ?_⟩
    · cases mapping m pd (i * 1024 + k) <;> simp
    · rintro x hx y hy rfl
      obtain ⟨j, hj, hmap⟩ := mem_tablePages.mp hx
      have := honce _ _ x (by rw [kernelPage]; omega) (by rw [kernelPage]; omega) hmap
        (Option.mem_toList.mp hy)
      omega

/-- **The pages are all different**, if none is mapped twice. -/
theorem nodup_directoryPages (h : Valid m pd) (happart : PagesApart m pd) (hk : k ≤ 768) :
    (directoryPages m pd k).Nodup := by
  induction k with
  | zero => exact nodup_nil
  | succ k ih =>
    rw [directoryPages_succ]
    refine nodup_append.mpr ⟨ih (by omega), nodup_append.mpr ⟨?_, ?_, ?_⟩, ?_⟩
    · exact nodup_tablePages honce (by omega) (Nat.le_refl 1024)
    · cases pageTable m pd k <;> simp
    · rintro x hx y hy rfl
      obtain ⟨j, hj, hmap⟩ := mem_tablePages.mp hx
      exact (happart _ x (by rw [kernelPage]; omega) hmap).2 k (by omega)
        (Option.mem_toList.mp hy)
    · rintro x hx y hy rfl
      rcases mem_directoryPages.mp hx with ⟨page, hpage, hmap⟩ | ⟨i, hi, htable⟩ <;>
        rcases mem_append.mp hy with hy | hy
      · obtain ⟨j, hj, hmap'⟩ := mem_tablePages.mp hy
        have := honce _ _ x (by rw [kernelPage]; omega) (by rw [kernelPage]; omega) hmap hmap'
        omega
      · exact (happart _ x (by rw [kernelPage]; omega) hmap).2 k (by omega)
          (Option.mem_toList.mp hy)
      · obtain ⟨j, hj, hmap'⟩ := mem_tablePages.mp hy
        exact (happart _ x (by rw [kernelPage]; omega) hmap').2 i (by omega) htable
      · have := h.pageTable_inj (by omega) (by omega) htable (Option.mem_toList.mp hy)
        omega

/-- **`pagedir_destroy` frees every page, every table and the directory once.** -/
theorem pagedirDestroy_once {initPageDir : Nat} (h : Valid m pd) (hinit : pd ≠ initPageDir)
    (happart : PagesApart m pd) :
    ∃ m' freed, pagedirDestroy initPageDir m pd = some (m', freed) ∧ freed.Nodup ∧
      ∀ x, x ∈ freed ↔ (∃ page, page < kernelPage ∧ mapping m pd page = some x) ∨
        (∃ i, i < 768 ∧ pageTable m pd i = some x) ∨ x = pd := by
  obtain ⟨m', hcode⟩ := pagedirDestroy_spec h hinit happart
  refine ⟨m', _, hcode, nodup_append.mpr
    ⟨nodup_directoryPages honce h happart (Nat.le_refl 768), by simp, ?_⟩, fun x => ?_⟩
  · rintro x hx y hy rfl
    obtain rfl : x = pd := mem_singleton.mp hy
    rcases mem_directoryPages.mp hx with ⟨page, hpage, hmap⟩ | ⟨i, hi, htable⟩
    · exact (happart page x hpage hmap).1 rfl
    · exact (h.word_of_pageTable (by omega) htable).2.1 rfl
  · rw [mem_append, mem_directoryPages, mem_singleton, or_assoc]
    rfl

end Nodup

end Destroy

/-! ## Runs -/

/-- A directory, with the kernel's. -/
structure Directory where
  mem : Tables
  pd : Nat
  initPageDir : Nat

/-- The calls that change a directory. -/
inductive PagedirOp where
  | setPage (upage kpage : Nat) (writable : Bool) (palloc : Option Nat)
  | clearPage (upage : Nat)
  | setDirty (vpage : Nat) (dirty : Bool)
  | setAccessed (vpage : Nat) (accessed : Bool)

namespace Directory

/-- A call, and whether it succeeds. -/
def exec (ramPages : Nat) (d : Directory) : PagedirOp → Option (Directory × Bool)
  | .setPage upage kpage writable palloc => do
    let (mem, ok) ← pagedirSetPage ramPages d.initPageDir d.mem d.pd upage kpage writable palloc
    some ({ d with mem }, ok)
  | .clearPage upage => do
    some ({ d with mem := ← pagedirClearPage d.mem d.pd upage }, true)
  | .setDirty vpage dirty => do
    some ({ d with mem := ← pagedirSetDirty d.mem d.pd vpage dirty }, true)
  | .setAccessed vpage accessed => do
    some ({ d with mem := ← pagedirSetAccessed d.mem d.pd vpage accessed }, true)

/-- What the caller sees to, and what `palloc_get_page` promises: the page it returns is
not part of the directory. -/
def Allowed (ramPages : Nat) (d : Directory) : PagedirOp → Prop
  | .setPage upage kpage _ palloc =>
    pgOfs upage = 0 ∧ upage < physBase ∧ IsPage kpage ∧ pgNo (kpage - physBase) < ramPages ∧
      pagedirGetPage d.mem d.pd upage = some none ∧ ∀ pt ∈ palloc, Fresh d.mem d.pd pt
  | .clearPage upage => pgOfs upage = 0 ∧ upage < physBase
  | .setDirty vpage _ => vpage < unsignedSize
  | .setAccessed vpage _ => vpage < unsignedSize

/-- A directory that has just been created.  `paging_init` gets a page for the directory of
the kernel and enough for its tables, otherwise it panics. -/
def Created (ramPages : Nat) (inKernelText : Nat → Bool) (d : Directory) : Prop :=
  ∃ m palloc mem, (∀ p ∈ d.initPageDir :: palloc, IsPage p) ∧ (d.initPageDir :: palloc).Nodup ∧
    (ramPages + 1023) / 1024 ≤ palloc.length ∧
    pagingInit inKernelText ramPages m (d.initPageDir :: palloc) = some (mem, d.initPageDir) ∧
    Fresh mem d.initPageDir d.pd ∧
    pagedirCreate mem d.initPageDir (some d.pd) = (d.mem, some d.pd)

end Directory

/-- What a call says about a page: nothing, or what it is mapped to from then on. -/
def mappingEffect (l : PagedirOp × Bool) (page : Nat) : Option (Option Nat) :=
  match l with
  | (.setPage upage kpage _ _, ok) => if ok ∧ page = pgNo upage then some (some kpage) else none
  | (.clearPage upage, _) => if page = pgNo upage then some none else none
  | (.setDirty _ _, _) => none
  | (.setAccessed _ _, _) => none

/-- What a page is mapped to after the first `t` calls, by the last successful one that says
something about it. -/
def lastMapped (label : Nat → PagedirOp × Bool) : Nat → Nat → Option Nat
  | 0, _ => none
  | t + 1, page =>
    match mappingEffect (label t) page with
    | some mapped => mapped
    | none => lastMapped label t page

/-- The system: calls, each with its result. -/
def pagedirSystem (ramPages : Nat) (inKernelText : Nat → Bool) :
    TransitionSystem Directory (PagedirOp × Bool) :=
  .checked (Directory.Created ramPages inKernelText) (fun d l => d.Allowed ramPages l.1)
    fun d l => do
      let (d, ok) ← d.exec ramPages l.1
      assert (ok = l.2)
      some d

/-- The bits that make the mapping: all but `PTE_A` and `PTE_D`. -/
def mappingBits : Word :=
  ~~~(pteA ||| pteD)

/-- How an address is mapped, with its permissions. -/
def Directory.mappingAt (d : Directory) (va : Nat) : Option Word :=
  (entry d.mem d.pd (pgNo va)).map (· &&& mappingBits)

/-- **The invariant.** -/
structure Directory.Ok (d : Directory) : Prop where
  valid : Valid d.mem d.pd
  ne : d.pd ≠ d.initPageDir

/-- **What a call does**: it changes what it says about user pages, and nothing about the
kernel's. -/
structure Directory.Step (d : Directory) (l : PagedirOp × Bool) (d' : Directory) : Prop where
  pd : d'.pd = d.pd
  user : ∀ page, page < kernelPage → mapping d'.mem d'.pd page =
    match mappingEffect l page with
    | some mapped => mapped
    | none => mapping d.mem d.pd page
  kernel : ∀ va, physBase ≤ va → va < unsignedSize → d'.mappingAt va = d.mappingAt va

section Steps
variable {ramPages : Nat} {d d' : Directory}

theorem pgNo_lt_kernelPage {va : Nat} (h : va < physBase) : pgNo va < kernelPage := by
  rw [physBase] at h
  rw [pgNo, pgsize, kernelPage]
  omega

theorem kernelPage_le_pgNo {va : Nat} (h : physBase ≤ va) : kernelPage ≤ pgNo va := by
  rw [physBase] at h
  rw [pgNo, pgsize, kernelPage]
  omega

theorem kernelPage_lt : kernelPage < pageCount := by
  rw [kernelPage, pageCount]
  omega

/-- `pagedir_set_dirty` and `pagedir_set_accessed`. -/
theorem Directory.Ok.setFlag (h : d.Ok) {flag : Word} (hflag : flag = pteA ∨ flag = pteD)
    {vpage : Nat} (hv : vpage < unsignedSize) (value : Bool) :
    ∃ mem, pagedirSetFlag flag d.mem d.pd vpage value = some mem ∧ Valid mem d.pd ∧
      (∀ page, page < pageCount → mapping mem d.pd page = mapping d.mem d.pd page ∧
        (entry mem d.pd page).map (· &&& mappingBits)
          = (entry d.mem d.pd page).map (· &&& mappingBits)) := by
  obtain ⟨haddr, hnaddr, hp, hnp, hbits, hnbits⟩ : flag &&& pteAddr = 0#32 ∧
      ~~~flag &&& pteAddr = pteAddr ∧ flag &&& pteP = 0#32 ∧ ~~~flag &&& pteP = pteP ∧
      flag &&& mappingBits = 0#32 ∧ ~~~flag &&& mappingBits = mappingBits := by
    rcases hflag with rfl | rfl <;> decide
  obtain ⟨mem, hcode, hvalid, hentries⟩ := h.valid.pagedirSetFlag_spec haddr hnaddr hv value
  refine ⟨mem, hcode, hvalid, fun page hpage => ?_⟩
  rcases hentries page hpage with hsame | ⟨w, w', hw, hw', rfl | rfl⟩
  · rw [mapping, mapping, hsame]
    exact ⟨rfl, rfl⟩
  · rw [mapping_of_entry hw, mapping_of_entry hw', hw, hw', Option.map_some, Option.map_some,
      or_and_mask hbits]
    exact ⟨present_congr (or_and_mask haddr w) (or_and_mask hp w), rfl⟩
  · rw [mapping_of_entry hw, mapping_of_entry hw', hw, hw', Option.map_some, Option.map_some,
      andNot_and_mask hnbits]
    exact ⟨present_congr (andNot_and_mask hnaddr w) (andNot_and_mask hnp w), rfl⟩

/-- **Every call keeps the invariant, and does not panic.** -/
theorem Directory.Ok.exec (h : d.Ok) {op : PagedirOp} (hallowed : d.Allowed ramPages op) :
    ∃ d' ok, d.exec ramPages op = some (d', ok) ∧ d'.Ok ∧ d.Step (op, ok) d' := by
  cases op with
  | setPage upage kpage writable palloc =>
    obtain ⟨hofs, hupage, hkpage, hram, hunmapped, hfresh⟩ := hallowed
    rw [h.valid.pagedirGetPage_eq hupage, Option.some.injEq, Option.map_eq_none_iff] at hunmapped
    rcases h.valid.pagedirSetPage_spec hofs hupage hkpage hram h.ne hunmapped hfresh writable with
      hcode | ⟨mem, hcode, hvalid, hentries, hmapping⟩
    · refine ⟨d, false, by rw [Directory.exec, hcode]; rfl, h, rfl, fun page _ => ?_,
        fun _ _ _ => rfl⟩
      rw [mappingEffect, if_neg (by simp)]
    · refine ⟨{ d with mem }, true, by rw [Directory.exec, hcode]; rfl, ⟨hvalid, h.ne⟩, rfl,
        fun page hpage => ?_, fun va hle hlt => ?_⟩
      · show mapping mem d.pd page = _
        rw [hmapping page (Nat.lt_trans hpage kernelPage_lt)]
        by_cases heq : page = pgNo upage
        · rw [if_pos heq, mappingEffect, if_pos ⟨rfl, heq⟩]
        · rw [if_neg heq, mappingEffect, if_neg fun hand => heq hand.2]
      · show (entry mem d.pd (pgNo va)).map _ = _
        rw [hentries _ (pgNo_lt hlt)]
        · rfl
        · have h1 := kernelPage_le_pgNo hle
          have h2 := pgNo_lt_kernelPage hupage
          rw [kernelPage] at h1 h2
          omega
  | clearPage upage =>
    obtain ⟨hofs, hupage⟩ := hallowed
    obtain ⟨mem, hcode, hvalid, hentries, hnone⟩ := h.valid.pagedirClearPage_spec hofs hupage
    refine ⟨{ d with mem }, true, by rw [Directory.exec, hcode]; rfl, ⟨hvalid, h.ne⟩, rfl,
      fun page hpage => ?_, fun va hle hlt => ?_⟩
    · show mapping mem d.pd page = _
      by_cases heq : page = pgNo upage
      · rw [mappingEffect, if_pos heq, heq]
        exact hnone
      · rw [mappingEffect, if_neg heq, mapping,
          hentries page (Nat.lt_trans hpage kernelPage_lt) heq]
        rfl
    · show (entry mem d.pd (pgNo va)).map _ = _
      rw [hentries _ (pgNo_lt hlt)]
      · rfl
      · have h1 := kernelPage_le_pgNo hle
        have h2 := pgNo_lt_kernelPage hupage
        omega
  | setDirty vpage dirty =>
    obtain ⟨mem, hcode, hvalid, hsame⟩ := h.setFlag (Or.inr rfl) hallowed dirty
    exact ⟨{ d with mem }, true, by rw [Directory.exec, pagedirSetDirty, hcode]; rfl,
      ⟨hvalid, h.ne⟩, rfl, fun page hpage => (hsame page (Nat.lt_trans hpage kernelPage_lt)).1,
      fun va _ hlt => (hsame _ (pgNo_lt hlt)).2⟩
  | setAccessed vpage accessed =>
    obtain ⟨mem, hcode, hvalid, hsame⟩ := h.setFlag (Or.inl rfl) hallowed accessed
    exact ⟨{ d with mem }, true, by rw [Directory.exec, pagedirSetAccessed, hcode]; rfl,
      ⟨hvalid, h.ne⟩, rfl, fun page hpage => (hsame page (Nat.lt_trans hpage kernelPage_lt)).1,
      fun va _ hlt => (hsame _ (pgNo_lt hlt)).2⟩

/-- A new directory maps no user page. -/
theorem Directory.Created.ok {inKernelText : Nat → Bool} (hram : ramPages ≤ 16384)
    (h : d.Created ramPages inKernelText) :
    d.Ok ∧ ∀ page, page < kernelPage → mapping d.mem d.pd page = none := by
  obtain ⟨m, palloc, mem, hpages, hnodup, henough, hcode, hfresh, hcreate⟩ := h
  obtain ⟨mem', hcode', hvalid, huser, -⟩ :=
    pagingInit_spec inKernelText m hram hpages hnodup henough
  obtain rfl : mem' = mem := congrArg Prod.fst (Option.some.inj (hcode'.symm.trans hcode))
  obtain ⟨hvalid', hpd⟩ := hvalid.pagedirCreate_spec hfresh
  rw [hcreate] at hvalid' hpd
  refine ⟨⟨hvalid', hfresh.ne⟩, fun page hpage => mapping_of_zero ?_⟩
  rw [kernelPage] at hpage
  exact (congrFun hpd _).trans (huser _ (by omega))

end Steps

section Run
variable {ramPages N : Nat} {inKernelText : Nat → Bool} {state : Nat → Directory}
  {label : Nat → PagedirOp × Bool} {d d' : Directory}

/-- A step is a call with its result. -/
theorem exec_of_step {l : PagedirOp × Bool}
    (hstep : (pagedirSystem ramPages inKernelText).step d l d') :
    d.exec ramPages l.1 = some (d', l.2) := by
  obtain ⟨⟨d'', ok⟩, hexec, hcode⟩ := of_bind hstep.2
  obtain ⟨_, hassert, hcode⟩ := of_bind hcode
  have hl : ok = l.2 := of_assert hassert
  rw [hexec, hl, Option.some.inj hcode]

/-- Only `pagedir_set_page` can fail. -/
theorem Directory.exec_clearPage {upage : Nat} {ok : Bool}
    (h : d.exec ramPages (.clearPage upage) = some (d', ok)) : ok = true := by
  obtain ⟨mem, -, hsome⟩ := of_bind h
  exact (congrArg Prod.snd (Option.some.inj hsome)).symm

/-- A step of a run. -/
theorem pagedir_step {l : PagedirOp × Bool} (h : d.Ok)
    (hstep : (pagedirSystem ramPages inKernelText).step d l d') : d'.Ok ∧ d.Step l d' := by
  obtain ⟨d'', ok, hexec, hok, hchange⟩ := h.exec hstep.1
  cases hexec.symm.trans (exec_of_step hstep)
  exact ⟨hok, hchange⟩

section
variable (hram : ramPages ≤ 16384) (hrun : (pagedirSystem ramPages inKernelText).Run N state label)
include hram hrun

theorem pagedir_ok : ∀ {t : Nat}, t ≤ N → (state t).Ok
  | 0, _ => (Directory.Created.ok hram hrun.init).1
  | t + 1, ht => (pagedir_step (pagedir_ok (by omega)) (hrun.step t (by omega))).1

/-- **The map that a directory represents**, along a run. -/
theorem mapping_eq_lastMapped :
    ∀ {t : Nat}, t ≤ N → ∀ page, page < kernelPage →
      mapping (state t).mem (state t).pd page = lastMapped label t page
  | 0, _, page, hpage => (Directory.Created.ok hram hrun.init).2 page hpage
  | t + 1, ht, page, hpage => by
    have hstep := (pagedir_step (pagedir_ok hram hrun (by omega)) (hrun.step t (by omega))).2
    rw [hstep.user page hpage, lastMapped, mapping_eq_lastMapped (by omega : t ≤ N) page hpage]

/-- The kernel's mappings stay, along a run. -/
theorem kernel_mappingAt {va : Nat} (hle : physBase ≤ va) (hlt : va < unsignedSize) :
    ∀ {t : Nat}, t ≤ N → (state t).mappingAt va = (state 0).mappingAt va
  | 0, _ => rfl
  | t + 1, ht => by
    have hstep := (pagedir_step (pagedir_ok hram hrun (by omega)) (hrun.step t (by omega))).2
    rw [hstep.kernel va hle hlt, kernel_mappingAt hle hlt (by omega : t ≤ N)]

end

theorem initRamPages_le (ax : BitVec 16) : initRamPages ax ≤ 16384 := by
  rw [initRamPages]
  split <;> omega

end Run

/-! ### A directory that can be created -/

section Example

/-- On a machine with at most 4 MB, `paging_init` takes two pages; a third is enough for a
directory. -/
theorem exists_created {ramPages initPageDir pt pd : Nat} (inKernelText : Nat → Bool)
    (hram : ramPages ≤ 1024) (hpages : ∀ p ∈ [initPageDir, pt, pd], IsPage p)
    (hnodup : [initPageDir, pt, pd].Nodup) :
    ∃ mem, Directory.Created ramPages inKernelText ⟨mem, pd, initPageDir⟩ ∧
      (∀ i, i < 768 → mem pd i = 0) ∧
      ∀ p, IsPage p → p ∉ [initPageDir, pt, pd] → Fresh mem pd p := by
  have hpd := hpages pd (by simp)
  simp only [nodup_cons, mem_cons, not_mem_nil, or_false, not_or,
    not_false_eq_true, nodup_nil, and_true] at hnodup
  obtain ⟨⟨hne, hne'⟩, hne''⟩ := hnodup
  have hpages' : ∀ p ∈ [initPageDir, pt], IsPage p := fun p hp => hpages p (by
    rcases mem_cons.mp hp with rfl | hp
    · simp
    · simp [mem_singleton.mp hp])
  have henough : (ramPages + 1023) / 1024 ≤ [pt].length := by
    rw [length_singleton]
    omega
  obtain ⟨mem, hcode, hvalid, huser, htables⟩ := pagingInit_spec inKernelText (fun _ _ => 0)
    (by omega) hpages' (by simp [hne]) henough
  have hfresh : ∀ p, IsPage p → p ≠ initPageDir → p ≠ pt → Fresh mem initPageDir p := by
    intro p hp h1 h2
    refine ⟨hp, h1, fun i hi hword => ?_⟩
    obtain ⟨p', hp', hword'⟩ := htables i hi (hword ▸ pdeWord_ne_zero p)
    rw [mem_singleton] at hp'
    subst hp'
    exact h2 (pdeWord_injective hp (hpages p' (by simp)) (hword.symm.trans hword'))
  have hpdFresh := hfresh pd hpd (Ne.symm hne') (Ne.symm hne'')
  obtain ⟨-, hself⟩ := hvalid.pagedirCreate_spec hpdFresh
  refine ⟨(pagedirCreate mem initPageDir (some pd)).1, ⟨_, [pt], mem, hpages', by simp [hne],
    henough, hcode, hpdFresh, rfl⟩, fun i hi => ?_, fun p hp hnotMem => ?_⟩
  · rw [hself]
    exact huser i hi
  · simp only [mem_cons, not_mem_nil, or_false, not_or] at hnotMem
    obtain ⟨h1, h2, h3⟩ := hnotMem
    refine ⟨hp, h3, fun i hi => ?_⟩
    rw [hself]
    exact (hfresh p hp h1 h2).notTable i hi

/-- The first page that is mapped gets the first table. -/
theorem pagedirSetPage_first {ramPages initPageDir kpage pt pd : Nat} {mem : Tables}
    (hkpage : IsPage kpage) (hram : pgNo (kpage - physBase) < ramPages) (hinit : pd ≠ initPageDir)
    (hpd : pd ≠ 0) (hpt : IsPage pt) (hne : pt ≠ pd) (hzero : mem pd 0 = 0) :
    ∃ w, present w = some kpage ∧
      pagedirSetPage ramPages initPageDir mem pd 0 kpage true (some pt)
        = some (((mem.fill pt 0).store pd 0 (pdeWord pt)).store pt 0 w, true) := by
  obtain ⟨w, hw, hpresent, -⟩ := pteCreateUser_spec hkpage true
  have hself : ((mem.fill pt 0).store pd 0 (pdeWord pt)) pd 0 = pdeWord pt := store_self
  have hlookup : lookupPage mem pd 0 true (some pt)
      = some ((mem.fill pt 0).store pd 0 (pdeWord pt), some (pt, 0)) := by
    have huser : true = false ∨ 0 < physBase := Or.inr (by decide)
    simp only [lookupPage, assert_of hpd, assert_of huser, some_bind, show pdNo 0 = 0 from rfl, show
      ptNo 0 = 0 from rfl, hzero, pdeCreate_eq hpt, hself, pdeGetPt_pdeWord hpt, if_true]
  have habsent : ((mem.fill pt 0).store pd 0 (pdeWord pt)) pt 0 &&& pteP = 0 := by
    rw [congrFun (store_of_ne hne) 0, fill_self]
    decide
  refine ⟨w, hpresent, ?_⟩
  rw [pagedirSetPage_eq (by decide) hkpage.aligned (by decide) (vtop_eq hkpage.kernel) hram hinit]
  simp only [hlookup, assert_of habsent, hw, some_bind]

/-- A loop whose rounds do nothing. -/
theorem foldlM_eq_self {σ : Type} {f : σ → Nat → Option σ} {s : σ} {l : List Nat}
    (h : ∀ i ∈ l, f s i = some s) : l.foldlM f s = some s := by
  induction l with
  | nil => rfl
  | cons i l ih =>
    rw [foldlM_cons, h i mem_cons_self, some_bind]
    exact ih fun j hj => h j (mem_cons_of_mem i hj)

/-- A loop of which only the first round does something. -/
theorem foldlM_range_first {σ : Type} {f : σ → Nat → Option σ} {s s' : σ} {n : Nat}
    (h0 : f s 0 = some s') (h : ∀ i, 0 < i → i < n + 1 → f s' i = some s') :
    (List.range (n + 1)).foldlM f s = some s' := by
  rw [range_succ_eq_map, foldlM_cons, h0, some_bind]
  refine foldlM_eq_self fun i hi => ?_
  obtain ⟨j, hj, rfl⟩ := mem_map.mp hi
  rw [mem_range] at hj
  exact h (j + 1) (Nat.succ_pos j) (Nat.succ_lt_succ hj)

/-- **A directory that maps itself** is freed as a page, which wipes it, and again as a
directory. -/
theorem pagedirDestroy_self {initPageDir pd pt : Nat} {m : Tables} {w : Word} (hpd : pd ≠ 0)
    (hinit : pd ≠ initPageDir) (hpt : IsPage pt) (hne : pt ≠ pd) (htable : m pd 0 = pdeWord pt)
    (hentry : m pt 0 = w) (hw : present w = some pd) (hrest : ∀ j, 0 < j → m pt j = 0) :
    ∃ m', pagedirDestroy initPageDir m pd = some (m', [pd, pt, pd]) := by
  have hwp : w &&& pteP ≠ 0 := fun hzero => by
    rw [present_of_absent hzero] at hw
    cases hw
  rw [present_of_present hwp] at hw
  have hpde : pdeWord pt &&& pteP ≠ 0 := by
    rw [pdeWord_present]
    decide
  -- the entries of the table: only the first is present
  have hinner : (List.range 1024).foldlM (destroyEntry pt) (m, [])
      = some (pallocFreePage (m, []) pd) := by
    refine foldlM_range_first (n := 1023) ?_ fun j hj _ => ?_
    · have hread : ((m, []) : Tables × List Nat).1 pt 0 = w := hentry
      rw [destroyEntry, hread, if_pos hwp, hw]
      rfl
    · have hread : (pallocFreePage (m, []) pd).1 pt j = 0 :=
        (congrFun (fill_of_ne hne) j).trans (hrest j hj)
      rw [destroyEntry, hread]
      rfl
  -- the directory is wiped by then, and shows no more tables
  have houter : (List.range (pdNo physBase)).foldlM (destroyTable pd) (m, [])
      = some (pallocFreePage (pallocFreePage (m, []) pd) pt) := by
    rw [show pdNo physBase = 767 + 1 by decide]
    refine foldlM_range_first ?_ fun i _ _ => ?_
    · have hread : ((m, []) : Tables × List Nat).1 pd 0 = pdeWord pt := htable
      rw [destroyTable, hread, if_pos hpde, pdeGetPt_pdeWord hpt, some_bind, hinner]
      rfl
    · have hread : (pallocFreePage (pallocFreePage (m, []) pd) pt).1 pd i = 0xcccccccc :=
        (congrFun (fill_of_ne hne.symm) i).trans fill_self
      rw [destroyTable, hread]
      rfl
  refine ⟨(pallocFreePage (pallocFreePage (pallocFreePage (m, []) pd) pt) pd).1, ?_⟩
  simp only [pagedirDestroy, if_neg hpd, assert_of hinit, houter, some_bind]
  rfl

/-- A run of one call, the first `pagedir_set_page` in a new directory. -/
theorem exists_first_run {ramPages initPageDir pt₀ pd pt kpage : Nat} (inKernelText : Nat → Bool)
    (hram : ramPages ≤ 1024) (hpages : ∀ p ∈ [initPageDir, pt₀, pd, pt], IsPage p)
    (hnodup : [initPageDir, pt₀, pd, pt].Nodup) (hk : IsPage kpage)
    (hkram : pgNo (kpage - physBase) < ramPages) :
    ∃ mem w, present w = some kpage ∧
      (pagedirSystem ramPages inKernelText).Run 1
        (fun t => if t = 0 then ⟨mem, pd, initPageDir⟩
          else ⟨((mem.fill pt 0).store pd 0 (pdeWord pt)).store pt 0 w, pd, initPageDir⟩)
        fun _ => (.setPage 0 kpage true (some pt), true) := by
  obtain ⟨hnodup', hpt⟩ : [initPageDir, pt₀, pd].Nodup ∧ pt ∉ [initPageDir, pt₀, pd] := by
    simp only [nodup_cons, mem_cons, not_mem_nil, or_false, not_or,
      not_false_eq_true, nodup_nil, and_true] at hnodup ⊢
    tauto
  obtain ⟨mem, hcreated, huser, hfresh⟩ := exists_created inKernelText hram
    (fun p hp => hpages p (mem_append_left [pt] hp)) hnodup'
  have hpt := hfresh pt (hpages pt (by simp)) hpt
  obtain ⟨hok, hnone⟩ := hcreated.ok (by omega)
  obtain ⟨w, hw, hcode⟩ := pagedirSetPage_first hk hkram hok.ne hok.valid.ne_zero hpt.page hpt.ne
    (huser 0 (by decide))
  have hunmapped : pagedirGetPage mem pd 0 = some none := by
    rw [hok.valid.pagedirGetPage_eq (by decide), hnone (pgNo 0) (by decide), Option.map_none]
  refine ⟨mem, w, hw, hcreated, fun t ht => ?_⟩
  obtain rfl : t = 0 := by omega
  refine ⟨⟨by decide, by decide, hk, hkram, hunmapped, fun p hp => ?_⟩, ?_⟩
  · cases hp
    exact hpt
  · have hexec : Directory.exec ramPages ⟨mem, pd, initPageDir⟩ (.setPage 0 kpage true (some pt))
        = some (⟨((mem.fill pt 0).store pd 0 (pdeWord pt)).store pt 0 w, pd, initPageDir⟩,
          true) := by
      rw [Directory.exec, hcode]
      rfl
    simp only [if_true, hexec, some_bind]
    rfl

instance (p : Nat) : Decidable (IsPage p) :=
  decidable_of_iff (pgOfs p = 0 ∧ physBase ≤ p ∧ p < unsignedSize)
    ⟨fun h => ⟨h.1, h.2.1, h.2.2⟩, fun h => ⟨h.1, h.2, h.3⟩⟩

end Example

end Pintos
