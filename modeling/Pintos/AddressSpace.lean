import Pintos.Memory
import Pintos.PageDirectory

/-!
# The address space of a process

`install_page` of `userprog/process.c`, with what `palloc_get_page` returns.  The tables of a
directory are pages of the kernel's pool and what is mapped are pages of the user pool, so that
they are kept as two memories here (`tables` and `frames`).  Which pages a pool returns is left
open; a pool returns no page that is in use.

An address space is an *image* (`image`): the bytes of every user page that is mapped, and
whether they may be written.  **Installing a page adds it to the image and changes nothing else**
(`Ok.installPage`), and a page that is in the image is not installed again.
-/

namespace Pintos
open List

/-- Where a process is loaded to.  `kernelPages` and `userPages` say for the coming calls of
`palloc_get_page`, one after the other, what they return.  `mapped` are the pages that
`pagedir_set_page` has mapped, the last one first. -/
structure Space where
  tables : Tables
  frames : Memory
  kernelPages : List (Option Nat)
  userPages : List (Option Nat)
  mapped : List Nat

namespace Space

/-! ## The code -/

/-- `palloc_get_page (PAL_USER)`. -/
def pallocGetPage (s : Space) : Space × Option Nat :=
  ({ s with userPages := s.userPages.tail }, s.userPages.head?.join)

/-- `palloc_free_page`, of a page of the user pool. -/
def pallocFreePage (s : Space) (kpage : Nat) : Space :=
  { s with frames := s.frames.fill ⟨kpage, pgsize⟩ 0xcc }

/-- `install_page`.  Where there is no table, `lookup_page` takes a page for one. -/
def installPage (ramPages initPageDir : Nat) (s : Space) (pd upage kpage : Nat) (writable : Bool) :
    Option (Space × Bool) := do
  match ← pagedirGetPage s.tables pd upage with
  | some _ => some (s, false)
  | none =>
    let (tables, ok) ← pagedirSetPage ramPages initPageDir s.tables pd upage kpage writable
      s.kernelPages.head?.join
    some ({ s with
      tables
      kernelPages := if s.tables pd (pdNo upage) = 0 then s.kernelPages.tail else s.kernelPages
      mapped := if ok then upage :: s.mapped else s.mapped }, ok)

/-! ## Images -/

/-- What is in a user page: its bytes, and whether they may be written. -/
def image (s : Space) (pd page : Nat) : Option (List (BitVec 8) × Bool) :=
  (mapping s.tables pd page).map fun kpage =>
    (s.frames.load kpage pgsize, pageWord s.tables pd page &&& pteW ≠ 0)

/-- No page is returned twice. -/
def Distinct (pages : List (Option Nat)) : Prop :=
  pages.Pairwise fun p q => p = none ∨ p ≠ q

instance (pages : List (Option Nat)) : Decidable (Distinct pages) :=
  inferInstanceAs (Decidable (pages.Pairwise _))

/-- A page of the user pool that is not mapped. -/
structure Unmapped (ramPages : Nat) (s : Space) (pd kpage : Nat) : Prop where
  page : IsPage kpage
  ram : pgNo (kpage - physBase) < ramPages
  unmapped : ∀ page, page < kernelPage → mapping s.tables pd page ≠ some kpage

/-- A page that has been returned, and is not mapped yet. -/
structure Spare (ramPages : Nat) (s : Space) (pd kpage : Nat) : Prop extends
    Unmapped ramPages s pd kpage where
  taken : some kpage ∉ s.userPages

/-- **An address space in order**: the pools return pages that are not in use, and the pages that
are mapped are user pages, but not the first one, and each has been mapped once. -/
structure Ok (ramPages initPageDir : Nat) (s : Space) (pd : Nat) : Prop where
  valid : Valid s.tables pd
  ne : pd ≠ initPageDir
  kernel : ∀ pt, some pt ∈ s.kernelPages → Fresh s.tables pd pt
  kernelOnce : Distinct s.kernelPages
  user : ∀ kpage, some kpage ∈ s.userPages → Unmapped ramPages s pd kpage
  userOnce : Distinct s.userPages
  frame : ∀ page kpage, page < kernelPage → mapping s.tables pd page = some kpage → IsPage kpage
  range : ∀ upage ∈ s.mapped, pgOfs upage = 0 ∧ pgsize ≤ upage ∧ upage < physBase
  once : s.mapped.Nodup
  complete : ∀ page, page < kernelPage →
    ((mapping s.tables pd page).isSome = true ↔ page * pgsize ∈ s.mapped)

/-- Pages that are in an image stay as they are. -/
def Grows (s s' : Space) (pd : Nat) : Prop :=
  ∀ page v, page < kernelPage → s.image pd page = some v → s'.image pd page = some v

/-- The byte at a user address, and whether it may be written. -/
def byteAt (s : Space) (pd ua : Nat) : Option (BitVec 8 × Bool) :=
  (s.image pd (pgNo ua)).bind fun v => (v.1)[pgOfs ua]?.map fun byte => (byte, v.2)

section Images
variable {ramPages initPageDir pd page kpage upage : Nat} {s s' s'' : Space}

theorem Grows.refl (s : Space) (pd : Nat) : Grows s s pd :=
  fun _ _ _ h => h

theorem Grows.trans (h : Grows s s' pd) (h' : Grows s' s'' pd) : Grows s s'' pd :=
  fun page v hpage hv => h' page v hpage (h page v hpage hv)

theorem Grows.byteAt (h : Grows s s' pd) {ua : Nat} (hua : ua < physBase) {v : BitVec 8 × Bool}
    (hv : s.byteAt pd ua = some v) : s'.byteAt pd ua = some v := by
  obtain ⟨u, hu, hv⟩ := of_bind hv
  rw [Space.byteAt, h _ u (pgNo_lt_kernelPage hua) hu]
  exact hv

theorem byteAt_of_image (ua : Nat) {frames : Memory} {writable : Bool}
    (h : s.image pd (pgNo ua) = some (frames.load kpage pgsize, writable)) :
    s.byteAt pd ua = some (frames (kpage + pgOfs ua), writable) := by
  have hlt : pgOfs ua < pgsize := Nat.mod_lt ua (by decide)
  have hget : (frames.load kpage pgsize)[pgOfs ua]? = some (frames (kpage + pgOfs ua)) := by
    rw [Memory.load, getElem?_map, getElem?_range hlt, Option.map_some]
  rw [Space.byteAt, h, Option.bind_some, hget, Option.map_some]

/-- **A byte of the image is one that the directory maps.** -/
theorem Ok.getPage_of_byteAt (h : s.Ok ramPages initPageDir pd) {ua : Nat} (hua : ua < physBase)
    {byte : BitVec 8} {writable : Bool} (hbyte : s.byteAt pd ua = some (byte, writable)) :
    ∃ kaddr, pagedirGetPage s.tables pd ua = some (some kaddr) ∧ s.frames kaddr = byte ∧
      (pageWord s.tables pd (pgNo ua) &&& pteW ≠ 0 ↔ writable = true) := by
  obtain ⟨v, hv, -⟩ := of_bind hbyte
  obtain ⟨kpage, hkpage, rfl⟩ := Option.map_eq_some_iff.mp hv
  rw [byteAt_of_image ua hv, Option.some.injEq, Prod.mk.injEq] at hbyte
  refine ⟨kpage + pgOfs ua, ?_, hbyte.1, ?_⟩
  · rw [h.valid.pagedirGetPage_eq hua, hkpage, Option.map_some]
  · rw [← hbyte.2, decide_eq_true_eq]

theorem Distinct.tail {pages : List (Option Nat)} (h : Distinct pages) : Distinct pages.tail :=
  List.Pairwise.tail h

theorem Distinct.head_notMem {pages : List (Option Nat)} {p : Nat} (h : Distinct pages)
    (hp : pages.head?.join = some p) : some p ∈ pages ∧ some p ∉ pages.tail := by
  cases pages with
  | nil => cases hp
  | cons q pages =>
    obtain rfl : q = some p := hp
    refine ⟨mem_cons_self, fun hmem => ?_⟩
    rcases (pairwise_cons.mp h).1 _ hmem with hnone | hne
    · cases hnone
    · exact hne rfl

/-- A byte of one page is not one of another. -/
theorem notMem_page {p q x : Nat} (hp : IsPage p) (hq : IsPage q) (hne : p ≠ q) (hx : x < pgsize) :
    p + x ∉ (⟨q, pgsize⟩ : Extent) := by
  rintro ⟨hle, hlt⟩
  have hp' := hp.aligned
  have hq' := hq.aligned
  change p + x < q + pgsize at hlt
  change q ≤ p + x at hle
  rw [pgOfs, pgsize] at hp' hq'
  rw [pgsize] at hx hlt
  omega

section
variable (h : s.Ok ramPages initPageDir pd)
include h

/-- **Writing to a page that is not mapped changes nothing in the image.** -/
theorem Ok.withFrames (hspare : s.Spare ramPages pd kpage) {frames : Memory}
    (hframes : ∀ x, x ∉ (⟨kpage, pgsize⟩ : Extent) → frames x = s.frames x) :
    Ok ramPages initPageDir { s with frames } pd ∧ Spare ramPages { s with frames } pd kpage ∧
      Grows s { s with frames } pd := by
  refine ⟨⟨h.valid, h.ne, h.kernel, h.kernelOnce,
    fun p hp => ⟨(h.user p hp).page, (h.user p hp).ram, (h.user p hp).unmapped⟩, h.userOnce,
    h.frame, h.range, h.once, h.complete⟩,
    ⟨⟨hspare.page, hspare.ram, hspare.unmapped⟩, hspare.taken⟩, fun page v hpage hv => ?_⟩
  obtain ⟨p, hp, rfl⟩ := Option.map_eq_some_iff.mp hv
  have hne : p ≠ kpage := fun heq => hspare.unmapped page hpage (heq ▸ hp)
  have hload : frames.load p pgsize = s.frames.load p pgsize :=
    Memory.load_congr fun x hx => hframes _ (notMem_page (h.frame page p hpage hp) hspare.page hne hx)
  rw [image]
  rw [hp, Option.map_some, hload]

/-- **`palloc_get_page`.** -/
theorem Ok.pallocGetPage :
    Ok ramPages initPageDir s.pallocGetPage.1 pd ∧ Grows s s.pallocGetPage.1 pd ∧
      ∀ kpage, s.pallocGetPage.2 = some kpage → Spare ramPages s.pallocGetPage.1 pd kpage := by
  refine ⟨⟨h.valid, h.ne, h.kernel, h.kernelOnce, fun p hp => ?_, h.userOnce.tail, h.frame, h.range,
    h.once, h.complete⟩, Grows.refl s pd, fun kpage hkpage => ?_⟩
  · obtain ⟨hpage, hram, hunmapped⟩ := h.user p (mem_of_mem_tail hp)
    exact ⟨hpage, hram, hunmapped⟩
  · obtain ⟨hmem, hnot⟩ := h.userOnce.head_notMem hkpage
    obtain ⟨hpage, hram, hunmapped⟩ := h.user kpage hmem
    exact ⟨⟨hpage, hram, hunmapped⟩, hnot⟩

/-- **`palloc_free_page`.** -/
theorem Ok.pallocFreePage (hspare : s.Spare ramPages pd kpage) :
    Ok ramPages initPageDir (s.pallocFreePage kpage) pd ∧ Grows s (s.pallocFreePage kpage) pd := by
  obtain ⟨h', -, hgrows⟩ := h.withFrames hspare fun x hx => Memory.fill_of_notMem hx
  exact ⟨h', hgrows⟩

end

/-- A page that has not become a table is still none. -/
theorem fresh_of_gainsTable {m m' : Tables} {i : Nat} {palloc : Option Nat} {p : Nat}
    (h : Fresh m pd p) (hgains : GainsTable m m' pd i palloc)
    (hpalloc : m pd i = 0 → ∀ pt ∈ palloc, IsPage pt ∧ pt ≠ p) : Fresh m' pd p := by
  refine ⟨h.page, h.ne, fun j hj hword => ?_⟩
  rcases hgains j with hsame | ⟨-, hzero, pt, hpt, hword'⟩
  · exact h.notTable j hj (hsame.symm.trans hword)
  · obtain ⟨hpage, hne⟩ := hpalloc hzero pt hpt
    exact hne (pdeWord_injective hpage h.page (hword'.symm.trans hword))

/-- Where a table was added, its page has been taken from the pool. -/
theorem Ok.kernel_of_gainsTable (h : s.Ok ramPages initPageDir pd) {m : Tables} {i : Nat}
    (hgains : GainsTable s.tables m pd i s.kernelPages.head?.join) :
    let pages := if s.tables pd i = 0 then s.kernelPages.tail else s.kernelPages
    (∀ pt, some pt ∈ pages → Fresh m pd pt) ∧ Distinct pages := by
  intro pages
  by_cases hzero : s.tables pd i = 0
  · have hpages : pages = s.kernelPages.tail := if_pos hzero
    rw [hpages]
    refine ⟨fun pt hpt => ?_, h.kernelOnce.tail⟩
    refine fresh_of_gainsTable (h.kernel pt (mem_of_mem_tail hpt)) hgains fun _ p hp => ?_
    obtain ⟨hmem, hnot⟩ := h.kernelOnce.head_notMem hp
    exact ⟨(h.kernel p hmem).page, fun heq => hnot (heq ▸ hpt)⟩
  · have hpages : pages = s.kernelPages := if_neg hzero
    rw [hpages]
    refine ⟨fun pt hpt => ?_, h.kernelOnce⟩
    exact fresh_of_gainsTable (h.kernel pt hpt) hgains fun hz => absurd hz hzero

/-- The words for the pages after a page has been mapped. -/
theorem mapping_of_words {m m' : Tables} {w : Word}
    (hwords : ∀ page, page < pageCount →
      pageWord m' pd page = if page = pgNo upage then w else pageWord m pd page)
    (hw : present w = some kpage) (hpage : page < kernelPage) :
    mapping m' pd page = if page = pgNo upage then some kpage else mapping m pd page := by
  rw [mapping_eq_present, hwords page (Nat.lt_trans hpage kernelPage_lt), mapping_eq_present]
  split
  · exact hw
  · rfl

section
variable (h : s.Ok ramPages initPageDir pd) (hspare : s.Spare ramPages pd kpage)
  (hofs : pgOfs upage = 0) (hlow : pgsize ≤ upage) (hhigh : upage < physBase)
include h hspare hofs hlow hhigh

/-- The word for a page has been written: the page is in the image. -/
theorem Ok.mapPage {writable : Bool} (hunmapped : mapping s.tables pd (pgNo upage) = none)
    {m : Tables} {w : Word} (hvalid : Valid m pd)
    (hgains : GainsTable s.tables m pd (pdNo upage) s.kernelPages.head?.join)
    (hw : pteCreateUser kpage writable = some w)
    (hwords : ∀ page, page < pageCount →
      pageWord m pd page = if page = pgNo upage then w else pageWord s.tables pd page) :
    let s' : Space := { s with
      tables := m
      kernelPages := if s.tables pd (pdNo upage) = 0 then s.kernelPages.tail else s.kernelPages
      mapped := upage :: s.mapped }
    Ok ramPages initPageDir s' pd ∧ Grows s s' pd ∧
      s'.image pd (pgNo upage) = some (s.frames.load kpage pgsize, writable) := by
  intro s'
  have hpage : pgNo upage < kernelPage := pgNo_lt_kernelPage hhigh
  obtain ⟨hkernel, honce⟩ := h.kernel_of_gainsTable hgains
  have hpresent : present w = some kpage := by
    obtain ⟨w', hw', hpresent, -⟩ := pteCreateUser_spec hspare.page writable
    rwa [Option.some.inj (hw.symm.trans hw')]
  have hmapping : ∀ page, page < kernelPage → mapping m pd page =
      if page = pgNo upage then some kpage else mapping s.tables pd page := fun page hlt =>
    mapping_of_words hwords hpresent hlt
  have haddr : pgNo upage * pgsize = upage := Nat.div_mul_cancel (Nat.dvd_of_mod_eq_zero hofs)
  have hnew : upage ∉ s.mapped := fun hmem => by
    rw [← haddr, ← h.complete _ hpage, hunmapped] at hmem
    cases hmem
  refine ⟨⟨hvalid, h.ne, hkernel, honce, fun p hp => ⟨(h.user p hp).page, (h.user p hp).ram,
    fun page hlt hp' => ?_⟩, h.userOnce, fun page p hlt hp => ?_, fun u hu => ?_,
    nodup_cons.mpr ⟨hnew, h.once⟩, fun page hlt => ?_⟩, fun page v hlt hv => ?_, ?_⟩
  · change mapping m pd page = some p at hp'
    rw [hmapping page hlt] at hp'
    split at hp'
    · exact hspare.taken (Option.some.inj hp' ▸ hp)
    · exact (h.user p hp).unmapped page hlt hp'
  · change mapping m pd page = some p at hp
    rw [hmapping page hlt] at hp
    split at hp
    · exact Option.some.inj hp ▸ hspare.page
    · exact h.frame page p hlt hp
  · rcases mem_cons.mp hu with rfl | hu
    · exact ⟨hofs, hlow, hhigh⟩
    · exact h.range u hu
  · change (mapping m pd page).isSome = true ↔ page * pgsize ∈ upage :: s.mapped
    rw [hmapping page hlt, mem_cons]
    split
    · next heq => simp [heq, haddr]
    · next hne =>
      rw [h.complete page hlt]
      refine ⟨Or.inr, fun hor => hor.resolve_left fun heq => hne ?_⟩
      rw [← heq, pgNo_mul]
  · obtain ⟨p, hp, hv⟩ := Option.map_eq_some_iff.mp hv
    have hne : page ≠ pgNo upage := by
      rintro rfl
      rw [hunmapped] at hp
      cases hp
    change (mapping m pd page).map _ = some v
    rw [hmapping page hlt, if_neg hne, hp, Option.map_some, ← hv]
    rw [hwords page (Nat.lt_trans hlt kernelPage_lt), if_neg hne]
  · have hbit : decide (w &&& pteW ≠ 0) = writable := by
      rw [Bool.eq_iff_iff, decide_eq_true_eq]
      exact writable_of_pteCreateUser hspare.page hw
    change (mapping m pd (pgNo upage)).map _ = _
    rw [hmapping _ hpage, if_pos rfl, Option.map_some]
    rw [hwords _ (Nat.lt_trans hpage kernelPage_lt), if_pos rfl, hbit]

/-- **`install_page`** adds the page to the image, if there is none at its address and there is a
page for its table. -/
theorem Ok.installPage (writable : Bool) :
    ∃ s' ok, s.installPage ramPages initPageDir pd upage kpage writable = some (s', ok) ∧
      Ok ramPages initPageDir s' pd ∧ Grows s s' pd ∧
      (ok = false → s'.Spare ramPages pd kpage) ∧
      (ok = true → s'.image pd (pgNo upage) = some (s.frames.load kpage pgsize, writable)) := by
  rw [Space.installPage, h.valid.pagedirGetPage_eq hhigh]
  cases hmapped : mapping s.tables pd (pgNo upage) with
  | some p =>
    exact ⟨s, false, rfl, h, Grows.refl s pd, fun _ => hspare, (absurd · (by decide))⟩
  | none =>
    have hfresh : ∀ pt ∈ s.kernelPages.head?.join, Fresh s.tables pd pt := fun pt hpt =>
      h.kernel pt (h.kernelOnce.head_notMem hpt).1
    simp only [some_bind, Option.map_none]
    rcases h.valid.pagedirSetPage_word hofs hhigh hspare.page hspare.ram h.ne hmapped hfresh writable
      with hcode | ⟨m, w, hcode, hvalid, hgains, hw, -, hwords⟩
    · -- no table, and no page for one
      obtain ⟨hkernel, honce⟩ := h.kernel_of_gainsTable (m := s.tables) (i := pdNo upage)
        fun _ => Or.inl rfl
      rw [hcode]
      exact ⟨_, false, rfl, ⟨h.valid, h.ne, hkernel, honce,
        fun p hp => ⟨(h.user p hp).page, (h.user p hp).ram, (h.user p hp).unmapped⟩, h.userOnce,
        h.frame, h.range, h.once, h.complete⟩, Grows.refl s pd,
        fun _ => ⟨⟨hspare.page, hspare.ram, hspare.unmapped⟩, hspare.taken⟩, (absurd · (by decide))⟩
    · obtain ⟨h', hgrows, himage⟩ :=
        h.mapPage hspare hofs hlow hhigh hmapped hvalid hgains hw hwords
      rw [hcode]
      exact ⟨_, true, rfl, h', hgrows, (absurd · (by decide)), fun _ => himage⟩

end

/-- The kernel's directory, which has no user pages. -/
structure Booted (tables : Tables) (initPageDir : Nat) : Prop where
  valid : Valid tables initPageDir
  user : ∀ i, i < 768 → tables initPageDir i = 0

theorem booted_fill {m : Tables} (hpd : IsPage initPageDir) :
    Booted (m.fill initPageDir 0) initPageDir :=
  ⟨valid_fill hpd, fun _ _ => Tables.fill_self⟩

/-- **The pools**: they return pages that are not in use, and none twice. -/
structure Pools (ramPages initPageDir : Nat) (s : Space) : Prop where
  kernel : ∀ pt, some pt ∈ s.kernelPages → Fresh s.tables initPageDir pt
  kernelOnce : Distinct s.kernelPages
  user : ∀ kpage, some kpage ∈ s.userPages → IsPage kpage ∧ pgNo (kpage - physBase) < ramPages
  userOnce : Distinct s.userPages

/-- **`pagedir_create`** makes an empty address space. -/
theorem ok_of_create (hboot : Booted s.tables initPageDir) (hpools : s.Pools ramPages initPageDir)
    (hpd : s.kernelPages.head?.join = some pd) :
    Ok ramPages initPageDir { s with
      tables := (pagedirCreate s.tables initPageDir (some pd)).1
      kernelPages := s.kernelPages.tail
      mapped := [] } pd := by
  obtain ⟨hmem, hnot⟩ := hpools.kernelOnce.head_notMem hpd
  have hfresh := hpools.kernel pd hmem
  obtain ⟨hvalid, hself⟩ := hboot.valid.pagedirCreate_spec hfresh
  generalize (pagedirCreate s.tables initPageDir (some pd)).1 = m at hvalid hself
  have hnone : ∀ page, page < kernelPage → mapping m pd page = none := by
    intro page hpage
    refine mapping_of_zero ?_
    rw [kernelPage] at hpage
    exact (congrFun hself _).trans (hboot.user _ (by omega))
  refine ⟨hvalid, hfresh.ne, fun pt hpt => ?_, hpools.kernelOnce.tail, fun p hp => ?_,
    hpools.userOnce, fun page p hpage hp => ?_, fun _ h => absurd h not_mem_nil, nodup_nil,
    fun page hpage => ?_⟩
  · have hpt' := hpools.kernel pt (mem_of_mem_tail hpt)
    refine ⟨hpt'.page, fun heq => hnot (heq ▸ hpt), fun i hi hword => hpt'.notTable i hi ?_⟩
    exact (congrFun hself i).symm.trans hword
  · obtain ⟨hpage, hram⟩ := hpools.user p hp
    refine ⟨hpage, hram, fun page hlt hp' => ?_⟩
    exact absurd ((hnone page hlt).symm.trans hp') (Option.some_ne_none p).symm
  · exact absurd ((hnone page hpage).symm.trans hp) (Option.some_ne_none p).symm
  · change (mapping m pd page).isSome = true ↔ _
    rw [hnone page hpage]
    simp

end Images

end Space

end Pintos
