import Pintos.KernelList
import Pintos.Memory

/-!
# Lists in memory

A `struct list_elem` is two pointers in memory, `prev` at its address and `next` four
bytes on; a null pointer is 0.  `links m` reads the heap of links off the memory `m`, and
the functions of `lib/kernel/list.c` that write are given here once more, on memory.

Links that overlap would disturb each other.  On a set of addresses that are **spaced**,
eight bytes apart or more, every write of a link does in memory what it does in the heap
of links (`Spaced.setPrev`, `Spaced.setNext`), so the functions on memory do what those
of `KernelList` do, and what is proved about these there carries over.
-/

namespace Pintos.MemoryList
open Function (update update_of_ne update_self)
open KernelList (Represents isInterior isTail listBegin listFront listEmpty nodes Fresh)

/-! ## The code -/

/-- A pointer as it stands in memory. -/
def pointer (v : Nat) : Option Nat :=
  if v = 0 then none else some v

/-- The links of every address. -/
def links (m : Memory) : LinkedHeap Nat := fun a =>
  ⟨pointer (m.word a), pointer (m.word (a + 4))⟩

/-- `a->prev = p`. -/
def setPrev (m : Memory) (a : Nat) (p : Option Nat) : Memory :=
  m.setWord a (p.getD 0)

/-- `a->next = n`. -/
def setNext (m : Memory) (a : Nat) (n : Option Nat) : Memory :=
  m.setWord (a + 4) (n.getD 0)

/-- `list_init`. -/
def listInit (m : Memory) (list : KernelList Nat) : Memory :=
  let m := setPrev m list.head none
  let m := setNext m list.head (some list.tail)
  let m := setPrev m list.tail (some list.head)
  setNext m list.tail none

/-- `list_insert`. -/
def listInsert (m : Memory) (before elem : Nat) : Option Memory := do
  assert (isInterior (links m) before || isTail (links m) before)
  let m := setPrev m elem (links m before).prev
  let m := setNext m elem (some before)
  let p ← (links m before).prev
  let m := setNext m p (some elem)
  some (setPrev m before (some elem))

/-- `list_push_front`. -/
def listPushFront (m : Memory) (list : KernelList Nat) (elem : Nat) : Option Memory := do
  listInsert m (← listBegin (links m) list) elem

/-- `list_push_back`. -/
def listPushBack (m : Memory) (list : KernelList Nat) (elem : Nat) : Option Memory :=
  listInsert m list.tail elem

/-- `list_remove`. -/
def listRemove (m : Memory) (elem : Nat) : Option Memory := do
  assert (isInterior (links m) elem)
  let p ← (links m elem).prev
  let m := setNext m p (links m elem).next
  let n ← (links m elem).next
  some (setPrev m n (links m elem).prev)

/-- `list_pop_front`, with the element it returns. -/
def listPopFront (m : Memory) (list : KernelList Nat) : Option (Memory × Nat) := do
  let front ← listFront (links m) list
  some (← listRemove m front, front)

/-! ## Memory and the heap of links -/

/-- The bytes of a list element. -/
def elemAt (a : Nat) : Extent := ⟨a, 8⟩

/-- List elements that can be told apart: none is at the null pointer and no two
overlap. -/
structure Spaced (S : Nat → Prop) : Prop where
  pos : ∀ a, S a → 0 < a
  lt : ∀ a, S a → a < unsignedSize
  apart : ∀ a b, S a → S b → a ≠ b → (elemAt a).Apart (elemAt b)

/-- Memory has the links of `h` in the elements of `S`. -/
def Agree (S : Nat → Prop) (m : Memory) (h : LinkedHeap Nat) : Prop :=
  ∀ a, S a → links m a = h a

section Links
variable {S : Nat → Prop} {m m' : Memory} {h h' : LinkedHeap Nat} {a b : Nat} {p : Option Nat}

/-- The bytes of an element decide its links. -/
theorem links_congr (heq : ∀ x ∈ elemAt a, m' x = m x) : links m' a = links m a := by
  have hprev : m'.word a = m.word a := Memory.word_congr fun x hx =>
    heq x (Memory.mem_of_mem_wordAt (k := 0) (by decide) hx)
  have hnext : m'.word (a + 4) = m.word (a + 4) := Memory.word_congr fun x hx =>
    heq x (Memory.mem_of_mem_wordAt (by decide) hx)
  rw [links, links, hprev, hnext]

theorem Spaced.pointer_getD (hS : Spaced S) (hp : ∀ v, p = some v → S v) :
    pointer (p.getD 0) = p := by
  cases p with
  | none => rfl
  | some v => exact if_neg (Nat.ne_of_gt (hS.pos v (hp v rfl)))

theorem Spaced.getD_lt (hS : Spaced S) (hp : ∀ v, p = some v → S v) :
    p.getD 0 < unsignedSize := by
  cases p with
  | none => decide
  | some v => exact hS.lt v (hp v rfl)

/-- A word written in an element leaves the others alone. -/
theorem Spaced.links_setWord {k v : Nat} (hS : Spaced S) (ha : S a) (hb : S b) (hne : b ≠ a)
    (hk : k + 4 ≤ 8) : links (m.setWord (a + k) v) b = links m b :=
  links_congr fun x hx => Memory.setWord_of_notMem fun hx' =>
    hS.apart b a hb ha hne x hx (Memory.mem_of_mem_wordAt hk hx')

section
variable (hS : Spaced S) (ha : S a) (hp : ∀ v, p = some v → S v) (hagree : Agree S m h)
include hS ha hp hagree

theorem Spaced.setPrev : Agree S (setPrev m a p) (h.setPrev a p) := by
  intro b hb
  by_cases hne : b = a
  · subst hne
    have hnext : (m.setWord b (p.getD 0)).word (b + 4) = m.word (b + 4) :=
      Memory.word_setWord_of_le (.inr (Nat.le_refl _))
    have hlinks := hagree b hb
    rw [links] at hlinks
    simp only [MemoryList.setPrev, links, Memory.word_setWord m b (hS.getD_lt hp), hnext,
      hS.pointer_getD hp, LinkedHeap.setPrev, update_self, ← hlinks]
  · rw [LinkedHeap.setPrev, update_of_ne hne, ← hagree b hb]
    exact hS.links_setWord (k := 0) ha hb hne (by decide)

theorem Spaced.setNext : Agree S (setNext m a p) (h.setNext a p) := by
  intro b hb
  by_cases hne : b = a
  · subst hne
    have hprev : (m.setWord (b + 4) (p.getD 0)).word b = m.word b :=
      Memory.word_setWord_of_le (.inl (Nat.le_refl _))
    have hlinks := hagree b hb
    rw [links] at hlinks
    simp only [MemoryList.setNext, links, Memory.word_setWord m (b + 4) (hS.getD_lt hp), hprev,
      hS.pointer_getD hp, LinkedHeap.setNext, update_self, ← hlinks]
  · rw [LinkedHeap.setNext, update_of_ne hne, ← hagree b hb]
    exact hS.links_setWord (k := 4) ha hb hne (by decide)

end

theorem setPrev_of_notMem {x : Nat} (hx : x ∉ elemAt a) : setPrev m a p x = m x :=
  Memory.setWord_of_notMem fun hx' => hx (Memory.mem_of_mem_wordAt (k := 0) (by decide) hx')

theorem setNext_of_notMem {x : Nat} (hx : x ∉ elemAt a) : setNext m a p x = m x :=
  Memory.setWord_of_notMem fun hx' => hx (Memory.mem_of_mem_wordAt (by decide) hx')

end Links

/-! ## The functions on memory -/

section Functions
variable {S : Nat → Prop} {m : Memory} {h h' : LinkedHeap Nat} {before elem p n : Nat}

/-- **`list_insert` in memory** does what it does in the heap of links, and writes only in
the new element and its two neighbours. -/
theorem Spaced.listInsert (hS : Spaced S) (hagree : Agree S m h) (hbefore : S before)
    (helem : S elem) (hp : (h before).prev = some p) (hSp : S p) (hne : elem ≠ before)
    (hcode : KernelList.listInsert h before elem = some h') :
    ∃ m', listInsert m before elem = some m' ∧ Agree S m' h' ∧
      ∀ x, x ∉ elemAt elem → x ∉ elemAt before → x ∉ elemAt p → m' x = m x := by
  have hS' : ∀ {a : Nat}, S a → ∀ v, some a = some v → S v :=
    fun ha v hv => Option.some.inj hv ▸ ha
  have hread : ((h.setPrev elem (h before).prev).setNext elem (some before) before).prev
      = some p := by
    rw [LinkedHeap.prev_setNext, LinkedHeap.prev_setPrev, if_neg (Ne.symm hne), hp]
  have hlinks := hagree before hbefore
  -- the two writes in the new element
  have hagree₂ := hS.setNext helem (hS' hbefore) (hS.setPrev (p := some p) helem (hS' hSp) hagree)
  have hread₂ := congrArg Links.prev (hagree₂ before hbefore)
  rw [← hp, hread] at hread₂
  -- and the two in its neighbours
  have hagree₄ := hS.setPrev hbefore (hS' helem) (hS.setNext hSp (hS' helem) hagree₂)
  rw [KernelList.listInsert, assert_of (KernelList.interior_or_tail hp)] at hcode
  simp only [hread, some_bind, Option.some.injEq] at hcode
  rw [← hp, hcode] at hagree₄
  have hasserted : (isInterior (links m) before || isTail (links m) before) = true :=
    KernelList.interior_or_tail (hlinks ▸ hp)
  refine ⟨_, ?_, hagree₄, ?_⟩
  · rw [MemoryList.listInsert, assert_of hasserted, hlinks]
    simp only [hread₂, some_bind]
  · intro x hx hx' hx''
    rw [setPrev_of_notMem hx', setNext_of_notMem hx'', setNext_of_notMem hx, setPrev_of_notMem hx]

/-- **`list_remove` in memory** writes only in the neighbours of the element. -/
theorem Spaced.listRemove (hS : Spaced S) (hagree : Agree S m h) (helem : S elem)
    (hp : (h elem).prev = some p) (hSp : S p) (hn : (h elem).next = some n) (hSn : S n)
    (hpe : p ≠ elem) {r : Option Nat} (hcode : KernelList.listRemove h elem = some (h', r)) :
    ∃ m', listRemove m elem = some m' ∧ Agree S m' h' ∧
      ∀ x, x ∉ elemAt p → x ∉ elemAt n → m' x = m x := by
  have hS' : ∀ {a : Nat}, S a → ∀ v, some a = some v → S v :=
    fun ha v hv => Option.some.inj hv ▸ ha
  have hlinks := hagree elem helem
  have hagree₁ := hS.setNext hSp (hS' hSn) hagree
  have hlinks₁ := hagree₁ elem helem
  have hnext₁ : (h.setNext p (some n) elem).next = some n := by
    rw [LinkedHeap.next_setNext, if_neg (Ne.symm hpe), hn]
  have hprev₁ : (h.setNext p (some n) elem).prev = some p := by
    rw [LinkedHeap.prev_setNext, hp]
  have hagree₂ := hS.setPrev hSn (hS' hSp) hagree₁
  rw [KernelList.listRemove_eq hp hn hpe, Option.some.injEq, Prod.mk.injEq] at hcode
  rw [← LinkedHeap.connect, hcode.1] at hagree₂
  refine ⟨_, ?_, hagree₂, ?_⟩
  · have hinterior : isInterior (links m) elem = true :=
      KernelList.isInterior_of (hlinks ▸ hp) (hlinks ▸ hn)
    rw [MemoryList.listRemove, assert_of hinterior, hlinks]
    simp only [hp, hn, hlinks₁, hnext₁, hprev₁, some_bind]
  · intro x hx hx'
    rw [setPrev_of_notMem hx', setNext_of_notMem hx]

end Functions

/-! ## Families of lists -/

section Family
variable {ι : Type} {S : Nat → Prop} {m m' : Memory} {lists : ι → KernelList Nat}
  {seqs : ι → List Nat} {i : ι} {elem : Nat}

/-- The lists are in memory, and all their elements are in `S`. -/
structure Holds (S : Nat → Prop) (m : Memory) (lists : ι → KernelList Nat)
    (seqs : ι → List Nat) : Prop where
  represents : Represents (links m) lists seqs
  inside : ∀ i, ∀ a ∈ (lists i).nodes (seqs i), S a

/-- The links of their elements decide which sequences the lists hold. -/
theorem represents_congr {h h' : LinkedHeap Nat}
    (heq : ∀ i, ∀ a ∈ (lists i).nodes (seqs i), h' a = h a) (hr : Represents h lists seqs) :
    Represents h' lists seqs := by
  refine ⟨fun i => ?_, hr.disjoint⟩
  have hw := hr.wellFormed i
  refine ⟨?_, ?_, hw.linked.of_eq (heq i), hw.nodup⟩
  · rw [heq i _ (by simp [nodes]), hw.head_prev]
  · rw [heq i _ (by simp [nodes]), hw.tail_next]

/-- **The lists stay as they are** where the bytes of their elements do. -/
theorem Holds.congr (h : Holds S m lists seqs)
    (heq : ∀ i, ∀ a ∈ (lists i).nodes (seqs i), ∀ x ∈ elemAt a, m' x = m x) :
    Holds S m' lists seqs :=
  ⟨represents_congr (fun i a ha => links_congr (heq i a ha)) h.represents, h.inside⟩

theorem Holds.mono {S' : Nat → Prop} (h : Holds S m lists seqs) (hS : ∀ a, S a → S' a) :
    Holds S' m lists seqs :=
  ⟨h.represents, fun i a ha => hS a (h.inside i a ha)⟩

variable [DecidableEq ι]

/-- The elements of a family after one list has changed. -/
theorem inside_update {xs : List Nat} (h : ∀ j, ∀ a ∈ (lists j).nodes (seqs j), S a)
    (hxs : ∀ a ∈ (lists i).nodes xs, S a) :
    ∀ j, ∀ a ∈ (lists j).nodes (update seqs i xs j), S a :=
  (Function.forall_update_iff seqs fun j xs => ∀ a ∈ (lists j).nodes xs, S a).mpr
    ⟨hxs, fun j _ => h j⟩

section
variable (hS : Spaced S) (h : Holds S m lists seqs)
include hS h

theorem Holds.insert (xs ys : List Nat) (hseq : seqs i = xs ++ ys) (helem : S elem)
    (hfresh : Fresh lists seqs elem) :
    ∃ m', listInsert m (ys.headD (lists i).tail) elem = some m' ∧
      Holds S m' lists (update seqs i (xs ++ elem :: ys)) ∧
      ∀ x, x ∉ elemAt elem → (∀ a ∈ (lists i).nodes (seqs i), x ∉ elemAt a) → m' x = m x := by
  obtain ⟨h', hcode, hr⟩ := h.represents.insert xs ys hseq hfresh
  have hlink := ((hseq ▸ h.represents.wellFormed i).neighbours xs ys).1
  have hbefore : ys.headD (lists i).tail ∈ (lists i).nodes (seqs i) :=
    hseq ▸ (lists i).headD_mem_nodes xs ys
  have hafter : xs.getLastD (lists i).head ∈ (lists i).nodes (seqs i) :=
    hseq ▸ (lists i).getLastD_mem_nodes xs ys
  have hne : elem ≠ ys.headD (lists i).tail := by
    rintro rfl
    exact hfresh i hbefore
  obtain ⟨m', hcode', hagree, hframe⟩ := hS.listInsert (fun _ _ => rfl)
    (h.inside i _ hbefore) helem hlink.2 (h.inside i _ hafter) hne hcode
  have hinside : ∀ j, ∀ a ∈ (lists j).nodes (update seqs i (xs ++ elem :: ys) j), S a := by
    refine inside_update h.inside fun a ha => ?_
    have hperm := (lists i).nodes_perm xs ys [elem]
    rw [List.append_assoc, List.singleton_append] at hperm
    rcases List.mem_cons.mp (hperm.mem_iff.mp ha) with rfl | ha
    · exact helem
    · exact h.inside i a (hseq ▸ ha)
  refine ⟨m', hcode', ⟨?_, hinside⟩, fun x hx hnodes => ?_⟩
  · exact represents_congr (fun j a ha => hagree a (hinside j a ha)) hr
  · exact hframe x hx (hnodes _ hbefore) (hnodes _ hafter)

theorem Holds.pushFront (helem : S elem) (hfresh : Fresh lists seqs elem) :
    ∃ m', listPushFront m (lists i) elem = some m' ∧
      Holds S m' lists (update seqs i (elem :: seqs i)) ∧
      ∀ x, x ∉ elemAt elem → (∀ a ∈ (lists i).nodes (seqs i), x ∉ elemAt a) → m' x = m x := by
  obtain ⟨m', hcode, hrest⟩ := h.insert hS [] (seqs i) rfl helem hfresh
  refine ⟨m', ?_, hrest⟩
  rw [listPushFront, h.represents.listBegin_eq i, some_bind, hcode]

theorem Holds.pushBack (helem : S elem) (hfresh : Fresh lists seqs elem) :
    ∃ m', listPushBack m (lists i) elem = some m' ∧
      Holds S m' lists (update seqs i (seqs i ++ [elem])) ∧
      ∀ x, x ∉ elemAt elem → (∀ a ∈ (lists i).nodes (seqs i), x ∉ elemAt a) → m' x = m x :=
  h.insert hS (seqs i) [] (List.append_nil _).symm helem hfresh

theorem Holds.remove (xs ys : List Nat) (hseq : seqs i = xs ++ elem :: ys) :
    ∃ m', listRemove m elem = some m' ∧ Holds S m' lists (update seqs i (xs ++ ys)) ∧
      ∀ x, (∀ a ∈ (lists i).nodes (seqs i), x ∉ elemAt a) → m' x = m x := by
  obtain ⟨h', hcode, hr⟩ := h.represents.remove xs ys hseq
  have hw := h.represents.wellFormed i
  have hseq' : seqs i = xs ++ [elem] ++ ys := by simp [hseq]
  obtain ⟨hbefore, hne⟩ := (hseq ▸ hw).neighbours xs (elem :: ys)
  obtain ⟨hafter, -⟩ := (hseq' ▸ hw).neighbours (xs ++ [elem]) ys
  rw [List.getLastD_concat] at hafter
  rw [List.headD_cons] at hbefore hne
  have hmem : elem ∈ (lists i).nodes (seqs i) := by simp [nodes, hseq]
  have hprev : xs.getLastD (lists i).head ∈ (lists i).nodes (seqs i) :=
    hseq ▸ (lists i).getLastD_mem_nodes xs (elem :: ys)
  have hnext : ys.headD (lists i).tail ∈ (lists i).nodes (seqs i) :=
    hseq' ▸ (lists i).headD_mem_nodes (xs ++ [elem]) ys
  obtain ⟨m', hcode', hagree, hframe⟩ := hS.listRemove (fun _ _ => rfl) (h.inside i _ hmem)
    hbefore.2 (h.inside i _ hprev) hafter.1 (h.inside i _ hnext) hne hcode
  have hinside : ∀ j, ∀ a ∈ (lists j).nodes (update seqs i (xs ++ ys) j), S a := by
    refine inside_update h.inside fun a ha => h.inside i a ?_
    rw [hseq']
    exact ((lists i).nodes_perm xs ys [elem]).mem_iff.mpr (List.mem_append_right _ ha)
  refine ⟨m', hcode', ⟨?_, hinside⟩, fun x hnodes => ?_⟩
  · exact represents_congr (fun j a ha => hagree a (hinside j a ha)) hr
  · exact hframe x (hnodes _ hprev) (hnodes _ hnext)

theorem Holds.popFront {xs : List Nat} (hseq : seqs i = elem :: xs) :
    ∃ m', listPopFront m (lists i) = some (m', elem) ∧ Holds S m' lists (update seqs i xs) ∧
      ∀ x, (∀ a ∈ (lists i).nodes (seqs i), x ∉ elemAt a) → m' x = m x := by
  obtain ⟨m', hcode, hrest⟩ := h.remove hS [] xs hseq
  refine ⟨m', ?_, hrest⟩
  rw [listPopFront, h.represents.listFront_eq hseq]
  simp only [hcode, some_bind]

end

end Family

end Pintos.MemoryList
