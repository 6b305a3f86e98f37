import Pintos.Basic
import Pintos.LinkedHeap

/-!
# Intrusive lists

`lib/kernel/list.c`.  A list element is a pair of links somewhere in memory, and a list
is two such elements, a head before its first element and a tail behind its last.  The
functions below write links in the order the code does and return `none` where an
assertion fails or a null pointer is followed.

The lists of the kernel live in one heap, so what an operation means is said about a
**family of lists** over disjoint elements (`Represents`).  `list_insert` puts a loose
segment of one element into a list, `list_remove` takes one out, and `list_splice` does
both: each is a composition of `LinkedHeap.connect`s (`listInsert_eq`, `listRemove_eq`,
`listSplice_eq`), and `Represents.cut` and `Represents.paste` say what these do to the
sequences.  `list_reverse` swaps the links of every element on the way and repairs the
two ends.

**The lists implement sequences** (`lists_implement_sequences`): any series of calls
does to the family what it does to the sequences, as long as an inserted element is in
none of the lists.  The assertions do not check that, and inserting an element for a
second time ties the list into a loop (`insert_twice_loops`).
-/

namespace Pintos
open List
open LinkedHeap (next_setNext prev_setPrev prev_connect next_connect prev_setNext next_setPrev
  ext_links connect_of_ne)
open Function (update update_eq_const_of_subsingleton update_of_ne update_self)

/-- `struct list`: the addresses of its two sentinel elements. -/
structure KernelList (E : Type) where
  head : E
  tail : E
  deriving DecidableEq

namespace KernelList
variable {E : Type}

/-! ## The code -/

/-- `is_head`. -/
def isHead (h : LinkedHeap E) (elem : E) : Bool :=
  (h elem).prev.isNone && (h elem).next.isSome

/-- `is_interior`. -/
def isInterior (h : LinkedHeap E) (elem : E) : Bool :=
  (h elem).prev.isSome && (h elem).next.isSome

/-- `is_tail`. -/
def isTail (h : LinkedHeap E) (elem : E) : Bool :=
  (h elem).prev.isSome && (h elem).next.isNone

/-- `list_begin`. -/
def listBegin (h : LinkedHeap E) (list : KernelList E) : Option E :=
  (h list.head).next

/-- `list_rbegin`. -/
def listRbegin (h : LinkedHeap E) (list : KernelList E) : Option E :=
  (h list.tail).prev

/-- `list_next`. -/
def listNext (h : LinkedHeap E) (elem : E) : Option E := do
  assert (isHead h elem || isInterior h elem)
  (h elem).next

/-- `list_prev`. -/
def listPrev (h : LinkedHeap E) (elem : E) : Option E := do
  assert (isInterior h elem || isTail h elem)
  (h elem).prev

variable [DecidableEq E]

/-- `list_init`. -/
def listInit (h : LinkedHeap E) (list : KernelList E) : LinkedHeap E :=
  let h := h.setPrev list.head none
  let h := h.setNext list.head (some list.tail)
  let h := h.setPrev list.tail (some list.head)
  h.setNext list.tail none

/-- `list_empty`. -/
def listEmpty (h : LinkedHeap E) (list : KernelList E) : Bool :=
  listBegin h list = some list.tail

/-- `list_insert`. -/
def listInsert (h : LinkedHeap E) (before elem : E) : Option (LinkedHeap E) := do
  assert (isInterior h before || isTail h before)
  let h := h.setPrev elem (h before).prev
  let h := h.setNext elem (some before)
  let p ← (h before).prev
  let h := h.setNext p (some elem)
  some (h.setPrev before (some elem))

/-- `list_splice`. -/
def listSplice (h : LinkedHeap E) (before first last : E) : Option (LinkedHeap E) := do
  assert (isInterior h before || isTail h before)
  if first = last then
    some h
  else
    let last ← listPrev h last
    assert (isInterior h first)
    assert (isInterior h last)
    -- removal from the current list
    let p ← (h first).prev
    let h := h.setNext p (h last).next
    let n ← (h last).next
    let h := h.setPrev n (h first).prev
    -- insertion into the new list
    let h := h.setPrev first (h before).prev
    let h := h.setNext last (some before)
    let q ← (h before).prev
    let h := h.setNext q (some first)
    some (h.setPrev before (some last))

/-- `list_push_front`. -/
def listPushFront (h : LinkedHeap E) (list : KernelList E) (elem : E) :
    Option (LinkedHeap E) := do
  listInsert h (← listBegin h list) elem

/-- `list_push_back`. -/
def listPushBack (h : LinkedHeap E) (list : KernelList E) (elem : E) : Option (LinkedHeap E) :=
  listInsert h list.tail elem

/-- `list_remove`, with the element it returns. -/
def listRemove (h : LinkedHeap E) (elem : E) : Option (LinkedHeap E × Option E) := do
  assert (isInterior h elem)
  let p ← (h elem).prev
  let h := h.setNext p (h elem).next
  let n ← (h elem).next
  let h := h.setPrev n (h elem).prev
  some (h, (h elem).next)

/-- `list_front`. -/
def listFront (h : LinkedHeap E) (list : KernelList E) : Option E := do
  assert (¬listEmpty h list)
  (h list.head).next

/-- `list_back`. -/
def listBack (h : LinkedHeap E) (list : KernelList E) : Option E := do
  assert (¬listEmpty h list)
  (h list.tail).prev

/-- `list_pop_front`, with the element it returns. -/
def listPopFront (h : LinkedHeap E) (list : KernelList E) : Option (LinkedHeap E × Option E) := do
  let front ← listFront h list
  let (h, _) ← listRemove h front
  some (h, some front)

/-- `list_pop_back`, with the element it returns. -/
def listPopBack (h : LinkedHeap E) (list : KernelList E) : Option (LinkedHeap E × Option E) := do
  let back ← listBack h list
  let (h, _) ← listRemove h back
  some (h, some back)

/-- `swap (&e->prev, &e->next)`. -/
def swapLinks (h : LinkedHeap E) (e : E) : LinkedHeap E :=
  let t := (h e).prev
  let h := h.setPrev e (h e).next
  h.setNext e t

/-- The loop of `list_reverse`, which walks on along the link it has just swapped. -/
def reverseLoop : Nat → LinkedHeap E → E → E → Option (LinkedHeap E)
  | 0, _, _, _ => none
  | fuel + 1, h, e, stop =>
    if e = stop then
      some h
    else do
      let h := swapLinks h e
      let e ← (h e).prev
      reverseLoop fuel h e stop

/-- The two last statements of `list_reverse`, which turn round the ends. -/
def swapEnds (h : LinkedHeap E) (list : KernelList E) : Option (LinkedHeap E) := do
  -- swap (&list->head.next, &list->tail.prev)
  let t := (h list.head).next
  let h := h.setNext list.head (h list.tail).prev
  let h := h.setPrev list.tail t
  -- swap (&list->head.next->prev, &list->tail.prev->next)
  let a ← (h list.head).next
  let b ← (h list.tail).prev
  let t := (h a).prev
  let h := h.setPrev a (h b).next
  some (h.setNext b t)

/-- `list_reverse`. -/
def listReverse (fuel : Nat) (h : LinkedHeap E) (list : KernelList E) : Option (LinkedHeap E) :=
  if listEmpty h list then
    some h
  else do
    let e ← listBegin h list
    let h ← reverseLoop fuel h e list.tail
    swapEnds h list

/-- A loop over list elements from `e` up to `stop`, with the elements visited. -/
def visit (advance : E → Option E) : Nat → E → E → Option (List E)
  | 0, _, _ => none
  | fuel + 1, e, stop =>
    if e = stop then
      some []
    else do
      let rest ← visit advance fuel (← advance e) stop
      some (e :: rest)

/-- The loop from `list_begin` to `list_end`. -/
def forward (fuel : Nat) (h : LinkedHeap E) (list : KernelList E) : Option (List E) := do
  visit (listNext h) fuel (← listBegin h list) list.tail

/-- The loop from `list_rbegin` to `list_rend`. -/
def backward (fuel : Nat) (h : LinkedHeap E) (list : KernelList E) : Option (List E) := do
  visit (listPrev h) fuel (← listRbegin h list) list.head

/-! ## The code writes connections -/

section Code
variable {h : LinkedHeap E} {before first last elem p n q : E}

section
omit [DecidableEq E]

/-- The assertion on where to insert asks for a predecessor. -/
theorem interior_or_tail (hp : (h before).prev = some p) :
    (isInterior h before || isTail h before) = true := by
  unfold isInterior isTail
  cases (h before).next <;> simp [hp]

theorem isInterior_of (hp : (h elem).prev = some p) (hn : (h elem).next = some n) :
    isInterior h elem = true := by
  simp [isInterior, hp, hn]

end

theorem listInsert_eq (hp : (h before).prev = some p) (helem : elem ≠ before) (hpe : p ≠ elem) :
    listInsert h before elem = some ((h.connect p elem).connect elem before) := by
  have hread : (((h.setPrev elem (h before).prev).setNext elem (some before)) before).prev
      = some p := by
    rw [prev_setNext, prev_setPrev, if_neg (Ne.symm helem), hp]
  simp only [listInsert, assert_of (interior_or_tail hp), hread, some_bind]
  refine congrArg some (ext_links (fun x => ?_) fun x => ?_)
  · simp [prev_setPrev, prev_connect, hp]
  · simp only [next_setPrev, next_setNext, next_connect]
    by_cases hx : x = p
    · simp [hx, hpe]
    · simp [hx]

theorem listRemove_eq (hp : (h elem).prev = some p) (hn : (h elem).next = some n)
    (hpe : p ≠ elem) : listRemove h elem = some (h.connect p n, some n) := by
  have hread : (h.setNext p (some n) elem).next = some n := by
    rw [next_setNext, if_neg (Ne.symm hpe), hn]
  simp only [listRemove, assert_of (isInterior_of hp hn), hp, hn, hread, some_bind, prev_setNext,
    next_setPrev]
  rfl

/-- **`list_splice` takes out and puts in.**  The range goes from `first` to `last`, the
element before `stop`; `q` is what stands before `before` once the range is gone. -/
theorem listSplice_eq {stop first' last' b : E} (hb : (h before).prev = some b)
    (hfirst : (h first).prev = some p) (hfirst' : (h first).next = some first')
    (hlast : (h last).prev = some last') (hstop : h.Link last stop) (hrange : first ≠ stop)
    (hpl : p ≠ last) (hq : ((h.connect p stop) before).prev = some q) (hbf : before ≠ first)
    (hql : q ≠ last) :
    listSplice h before first stop
      = some (((h.connect p stop).connect q first).connect last before) := by
  obtain ⟨hnext, hprev⟩ := hstop
  have hcut : (h.setNext p (h last).next).setPrev stop ((h.setNext p (h last).next) first).prev
      = h.connect p stop := by
    rw [prev_setNext, hnext, hfirst, LinkedHeap.connect]
  have hread : (h.setNext p (h last).next last).next = some stop := by
    rw [next_setNext, if_neg (Ne.symm hpl), hnext]
  have hpred : listPrev h stop = some last := by
    simp only [listPrev, assert_of (interior_or_tail hprev), hprev, some_bind]
  have hread' : (((h.connect p stop).setPrev first (some q)).setNext last (some before)
      before).prev = some q := by
    rw [prev_setNext, prev_setPrev, if_neg hbf, hq]
  simp only [listSplice, assert_of (interior_or_tail hb), if_neg hrange, hpred, assert_of
    (isInterior_of hfirst hfirst'), assert_of (isInterior_of hlast hnext), some_bind]
  rw [hfirst, some_bind, hread, some_bind, hcut, hq, hread', some_bind]
  refine congrArg some (ext_links (fun x => ?_) fun x => ?_)
  · simp [prev_setPrev, prev_connect]
  · simp only [next_setPrev, next_setNext, next_connect]
    by_cases hx : x = q
    · simp [hx, hql]
    · simp [hx]

/-- Once every element between them has its links swapped, the ends are connected anew. -/
theorem swapEnds_eq {list : KernelList E} (hhead : (h list.head).next = some first)
    (htail : (h list.tail).prev = some last) (hlast : (h last).prev = some list.tail)
    (hfirst : (h first).next = some list.head) (hne : first ≠ list.head)
    (hne' : last ≠ list.tail) :
    swapEnds h list = some ((h.connect list.head last).connect first list.tail) := by
  simp only [swapEnds, hhead, htail]
  generalize hh : (h.setNext list.head (some last)).setPrev list.tail (some first) = h₁
  have hnext : (h₁ list.head).next = some last := by simp [← hh, next_setNext]
  have hprev : (h₁ list.tail).prev = some first := by simp [← hh, prev_setPrev]
  have hprev' : (h₁ last).prev = some list.tail := by simp [← hh, prev_setPrev, hne', hlast]
  have hnext' : (h₁ first).next = some list.head := by simp [← hh, next_setNext, hne, hfirst]
  simp only [hnext, hprev, hprev', hnext', some_bind]
  subst hh
  refine congrArg some (ext_links (fun x => ?_) fun x => ?_)
  · simp only [prev_setNext, prev_setPrev, prev_connect]
    by_cases hx : x = last
    · simp [hx, hne']
    · simp [hx]
  · simp [next_setNext, next_connect]

end Code

/-! ## Families of lists -/

/-- Every element of a list that holds `xs`, the sentinels included. -/
def nodes (list : KernelList E) (xs : List E) : List E :=
  list.head :: (xs ++ [list.tail])

/-- **The list holds `xs`.** -/
structure WellFormed (h : LinkedHeap E) (list : KernelList E) (xs : List E) : Prop where
  head_prev : (h list.head).prev = none
  tail_next : (h list.tail).next = none
  linked : h.Linked (list.nodes xs)
  nodup : (list.nodes xs).Nodup

section Positions
omit [DecidableEq E]
variable (list : KernelList E) (xs ys : List E)

theorem getLastD_mem : xs.getLastD list.head ∈ list.head :: (xs ++ ys) := by
  rcases eq_nil_or_concat xs with rfl | ⟨zs, z, rfl⟩ <;> simp

theorem headD_mem : ys.headD list.tail ∈ xs ++ ys ++ [list.tail] := by
  cases ys <;> simp

theorem getLastD_mem_nodes : xs.getLastD list.head ∈ list.nodes (xs ++ ys) :=
  mem_append_left [list.tail] (list.getLastD_mem xs ys)

theorem headD_mem_nodes : ys.headD list.tail ∈ list.nodes (xs ++ ys) :=
  mem_cons_of_mem list.head (list.headD_mem xs ys)

/-- **A place in a list** is between two neighbours: what comes before, or the head, and
what comes after, or the tail. -/
theorem nodes_split : ∃ ps qs, ∀ mid, list.nodes (xs ++ mid ++ ys)
    = ps ++ xs.getLastD list.head :: (mid ++ ys.headD list.tail :: qs) := by
  obtain ⟨ps, hps⟩ : ∃ ps, list.head :: xs = ps ++ [xs.getLastD list.head] := by
    rcases eq_nil_or_concat xs with rfl | ⟨zs, z, rfl⟩
    · exact ⟨[], by simp⟩
    · exact ⟨list.head :: zs, by simp⟩
  obtain ⟨qs, hqs⟩ : ∃ qs, ys ++ [list.tail] = ys.headD list.tail :: qs := by
    cases ys with
    | nil => exact ⟨[], rfl⟩
    | cons y ys => exact ⟨ys ++ [list.tail], rfl⟩
  refine ⟨ps, qs, fun mid => ?_⟩
  calc list.nodes (xs ++ mid ++ ys) = (list.head :: xs) ++ (mid ++ (ys ++ [list.tail])) := by
        simp [nodes]
    _ = ps ++ xs.getLastD list.head :: (mid ++ ys.headD list.tail :: qs) := by
        rw [hps, hqs]
        simp

/-- The elements of a list with a segment in it are those of the segment and those of
the list without it. -/
theorem nodes_perm (mid : List E) :
    (list.nodes (xs ++ mid ++ ys)).Perm (mid ++ list.nodes (xs ++ ys)) := by
  have hshape : ∀ zs, list.nodes (xs ++ zs ++ ys)
      = (list.head :: xs) ++ zs ++ (ys ++ [list.tail]) := fun zs => by simp [nodes]
  have hempty := hshape []
  rw [append_nil] at hempty
  rw [hempty, hshape mid, append_nil]
  have hswap : ((list.head :: xs) ++ mid).Perm (mid ++ (list.head :: xs)) := perm_append_comm
  simpa using hswap.append_right (ys ++ [list.tail])

variable {list xs}

theorem ne_head {b : E} (hnodup : (list.nodes xs).Nodup) (hb : b ∈ xs ++ [list.tail]) :
    b ≠ list.head := by
  rintro rfl
  exact (nodup_cons.mp hnodup).1 hb

theorem ne_tail {a : E} (hnodup : (list.nodes xs).Nodup) (ha : a ∈ list.head :: xs) :
    a ≠ list.tail := by
  rintro rfl
  rw [nodes, ← cons_append] at hnodup
  exact (nodup_append.mp hnodup).2.2 _ ha _ (mem_singleton.mpr rfl) rfl

end Positions


section Family
variable {ι : Type} [DecidableEq ι] {h h' : LinkedHeap E} {lists : ι → KernelList E}
  {seqs : ι → List E} {i : ι} {xs ys mid : List E}

/-- **The family of lists holds the sequences**, over disjoint elements. -/
structure Represents (h : LinkedHeap E) (lists : ι → KernelList E) (seqs : ι → List E) : Prop where
  wellFormed : ∀ i, WellFormed h (lists i) (seqs i)
  disjoint : ∀ i j, i ≠ j → ((lists i).nodes (seqs i)).Disjoint ((lists j).nodes (seqs j))

/-- A segment linked in itself and apart from the lists. -/
structure Loose (h : LinkedHeap E) (lists : ι → KernelList E) (seqs : ι → List E)
    (mid : List E) : Prop where
  linked : h.Linked mid
  nodup : mid.Nodup
  disjoint : ∀ i, mid.Disjoint ((lists i).nodes (seqs i))

omit [DecidableEq E] in
/-- **One list changes**: the others are as they were if none of their elements is
written. -/
theorem Represents.update (hr : Represents h lists seqs) (hi : WellFormed h' (lists i) xs)
    (hframe : ∀ j, j ≠ i → ∀ a ∈ (lists j).nodes (seqs j), h' a = h a)
    (hdisj : ∀ j, j ≠ i → ((lists i).nodes xs).Disjoint ((lists j).nodes (seqs j))) :
    Represents h' lists (update seqs i xs) := by
  refine ⟨fun j => ?_, fun j k hjk => ?_⟩
  · by_cases hj : j = i
    · subst hj
      simpa using hi
    · have hw := hr.wellFormed j
      have heq := hframe j hj
      simp only [update_of_ne hj]
      refine ⟨?_, ?_, hw.linked.of_eq heq, hw.nodup⟩
      · rw [heq _ (by simp [nodes]), hw.head_prev]
      · rw [heq _ (by simp [nodes]), hw.tail_next]
  · by_cases hj : j = i
    · subst hj
      rw [update_self, update_of_ne (Ne.symm hjk)]
      exact hdisj k (Ne.symm hjk)
    · by_cases hk : k = i
      · subst hk
        rw [update_self, update_of_ne hj]
        exact fun x hx hx' => hdisj j hj hx' hx
      · rw [update_of_ne hj, update_of_ne hk]
        exact hr.disjoint j k hjk

omit [DecidableEq ι] in
variable {list : KernelList E}

/-- The ends of a list are not seen by a connection between other elements. -/
theorem WellFormed.of_connect {a b : E} (hw : WellFormed h list xs) (ha : a ≠ list.tail)
    (hb : b ≠ list.head) (hl : (h.connect a b).Linked (list.nodes ys))
    (hnodup : (list.nodes ys).Nodup) : WellFormed (h.connect a b) list ys where
  head_prev := by rw [prev_connect, if_neg (Ne.symm hb), hw.head_prev]
  tail_next := by rw [next_connect, if_neg (Ne.symm ha), hw.tail_next]
  linked := hl
  nodup := hnodup

/-- **A segment is taken out of a list** by connecting its neighbours, and is loose
then. -/
theorem Represents.cut (hr : Represents h lists seqs) (hseq : seqs i = xs ++ mid ++ ys) :
    let h' := h.connect (xs.getLastD (lists i).head) (ys.headD (lists i).tail)
    let seqs' := Function.update seqs i (xs ++ ys)
    Represents h' lists seqs' ∧ Loose h' lists seqs' mid := by
  obtain ⟨ps, qs, hnodes⟩ := (lists i).nodes_split xs ys
  have hperm := (lists i).nodes_perm xs ys mid
  have hbefore := (lists i).getLastD_mem xs ys
  have hafter := (lists i).headD_mem xs ys
  set a := xs.getLastD (lists i).head
  set b := ys.headD (lists i).tail
  have hw : WellFormed h (lists i) (xs ++ mid ++ ys) := hseq ▸ hr.wellFormed i
  have hshort : (lists i).nodes (xs ++ ys) = ps ++ a :: b :: qs := by
    simpa using hnodes []
  obtain ⟨hmid, hnodup, hapart⟩ := nodup_append.mp (hperm.nodup_iff.mp hw.nodup)
  have hdisj : ∀ j, j ≠ i → ∀ x ∈ (lists j).nodes (seqs j),
      x ∉ mid ∧ x ∉ (lists i).nodes (xs ++ ys) := by
    intro j hj x hx
    have hnot : x ∉ (lists i).nodes (xs ++ mid ++ ys) := hseq ▸ hr.disjoint j i hj hx
    rwa [hperm.mem_iff, mem_append, not_or] at hnot
  obtain ⟨hl, hlmid⟩ := LinkedHeap.Linked.cut (hnodes mid ▸ hw.nodup) (hnodes mid ▸ hw.linked)
  refine ⟨hr.update (hw.of_connect ?_ ?_ (hshort ▸ hl) hnodup) ?_ ?_, hlmid, hmid, ?_⟩
  · exact ne_tail hnodup hbefore
  · exact ne_head hnodup hafter
  · intro j hj x hx
    have hnot := (hdisj j hj x hx).2
    rw [hshort] at hnot
    exact h.connect_of_ne (by rintro rfl; simp at hnot) (by rintro rfl; simp at hnot)
  · intro j hj x hx hx'
    exact (hdisj j hj x hx').2 hx
  · intro j x hx
    by_cases hj : j = i
    · subst hj
      rw [Function.update_self]
      exact fun hx' => hapart x hx x hx' rfl
    · rw [Function.update_of_ne hj]
      exact fun hx' => (hdisj j hj x hx').1 hx

/-- **A loose segment is put into a list** between two neighbours. -/
theorem Represents.paste {first last : E} (hr : Represents h lists seqs)
    (hloose : Loose h lists seqs mid) (hseq : seqs i = xs ++ ys) (hfirst : mid.head? = some first)
    (hlast : mid.getLast? = some last) :
    Represents ((h.connect (xs.getLastD (lists i).head) first).connect last
        (ys.headD (lists i).tail)) lists (Function.update seqs i (xs ++ mid ++ ys)) := by
  obtain ⟨ps, qs, hnodes⟩ := (lists i).nodes_split xs ys
  have hperm := (lists i).nodes_perm xs ys mid
  have hbefore := (lists i).getLastD_mem xs ys
  have hafter := (lists i).headD_mem xs ys
  set a := xs.getLastD (lists i).head
  set b := ys.headD (lists i).tail
  have hw : WellFormed h (lists i) (xs ++ ys) := hseq ▸ hr.wellFormed i
  have hshort : (lists i).nodes (xs ++ ys) = ps ++ a :: b :: qs := by
    simpa using hnodes []
  have hmemf : first ∈ mid := mem_of_mem_head? hfirst
  have hmeml : last ∈ mid := mem_of_getLast? hlast
  have hapart : ∀ x ∈ mid, x ∉ (lists i).nodes (xs ++ ys) := by
    intro x hx
    rw [← hseq]
    exact hloose.disjoint i hx
  have hnodup : ((lists i).nodes (xs ++ mid ++ ys)).Nodup := by
    refine hperm.nodup_iff.mpr (nodup_append.mpr ⟨hloose.nodup, hw.nodup, ?_⟩)
    rintro x hx y hy rfl
    exact hapart x hx hy
  have hlinked : h.Linked (ps ++ a :: b :: qs) := hshort ▸ hw.linked
  have hl := LinkedHeap.Linked.paste ps qs hfirst hlast (hnodes mid ▸ hnodup) hlinked.upto
    hloose.linked hlinked.behind
  have hhead : ∀ x ∈ mid, x ≠ (lists i).head ∧ x ≠ (lists i).tail := by
    intro x hx
    refine ⟨?_, ?_⟩ <;> rintro rfl <;> exact hapart _ hx (by simp [nodes])
  refine hr.update ⟨?_, ?_, hnodes mid ▸ hl, hnodup⟩ ?_ ?_
  · rw [prev_connect, if_neg, prev_connect, if_neg, hw.head_prev]
    · exact (hhead first hmemf).1.symm
    · exact (ne_head hw.nodup hafter).symm
  · rw [next_connect, if_neg, next_connect, if_neg, hw.tail_next]
    · exact (ne_tail hw.nodup hbefore).symm
    · exact (hhead last hmeml).2.symm
  · intro j hj x hx
    have hnot : x ∉ (lists i).nodes (xs ++ ys) := hseq ▸ hr.disjoint j i hj hx
    have hnot' : x ∉ mid := fun hx' => hloose.disjoint j hx' hx
    rw [hshort] at hnot
    rw [connect_of_ne, connect_of_ne]
    · rintro rfl; simp at hnot
    · rintro rfl; exact hnot' hmemf
    · rintro rfl; exact hnot' hmeml
    · rintro rfl; simp at hnot
  · intro j hj x hx hx'
    rcases mem_append.mp (hperm.mem_iff.mp hx) with hx | hx
    · exact hloose.disjoint j hx hx'
    · exact hr.disjoint i j (Ne.symm hj) (hseq ▸ hx) hx'

omit [DecidableEq E] in
/-- The two elements around a place in a list are different and point at each other. -/
theorem WellFormed.neighbours (xs ys : List E) (hw : WellFormed h list (xs ++ ys)) :
    h.Link (xs.getLastD list.head) (ys.headD list.tail) ∧
      xs.getLastD list.head ≠ ys.headD list.tail := by
  obtain ⟨ps, qs, hnodes⟩ := list.nodes_split xs ys
  have hshort : list.nodes (xs ++ ys)
      = ps ++ xs.getLastD list.head :: ys.headD list.tail :: qs := by
    simpa using hnodes []
  refine ⟨LinkedHeap.Linked.link (hshort ▸ hw.linked), fun heq => ?_⟩
  have hnodup := hw.nodup
  rw [hshort] at hnodup
  exact (nodup_cons.mp (nodup_append.mp hnodup).2.1).1 (mem_cons.mpr (.inl heq))

/-! ## Reversal -/

omit [DecidableEq E] in
/-- What a chain relates its first element to: the next, or the end if there is none. -/
theorem chain_headD {R : E → E → Prop} {a stop : E} (hchain : (a :: (xs ++ [stop])).IsChain R) :
    R a (xs.headD stop) := by
  cases xs with
  | nil => exact (isChain_cons_cons.mp hchain).1
  | cons x xs => exact (isChain_cons_cons.mp hchain).1

/-- The heap with the links of the given elements swapped. -/
def swapAll (h : LinkedHeap E) (xs : List E) : LinkedHeap E := fun x =>
  if x ∈ xs then ⟨(h x).next, (h x).prev⟩ else h x

theorem swapAll_of_mem {x : E} (hx : x ∈ xs) : swapAll h xs x = ⟨(h x).next, (h x).prev⟩ :=
  if_pos hx

theorem swapAll_of_notMem {x : E} (hx : x ∉ xs) : swapAll h xs x = h x :=
  if_neg hx

theorem swapLinks_eq (h : LinkedHeap E) (e : E) : swapLinks h e = swapAll h [e] := by
  refine ext_links (fun x => ?_) fun x => ?_ <;> by_cases hx : x = e <;>
    simp [swapLinks, swapAll, prev_setPrev, next_setNext, hx]

/-- **The loop swaps the links of every element** it walks over. -/
theorem reverseLoop_eq {stop : E} {fuel : Nat} (hl : h.Linked (xs ++ [stop]))
    (hnodup : (xs ++ [stop]).Nodup) (hfuel : xs.length < fuel) :
    reverseLoop fuel h (xs.headD stop) stop = some (swapAll h xs) := by
  induction xs generalizing h fuel with
  | nil =>
    obtain ⟨fuel, rfl⟩ := Nat.exists_eq_add_one.mpr hfuel
    have hnil : swapAll h [] = h := funext fun x => swapAll_of_notMem not_mem_nil
    simp [reverseLoop, hnil]
  | cons e xs ih =>
    obtain ⟨fuel, rfl⟩ := Nat.exists_eq_add_one.mpr (Nat.zero_lt_of_lt hfuel)
    obtain ⟨he, hnodup⟩ := nodup_cons.mp hnodup
    have hstop : e ≠ stop := fun heq => he (by simp [heq])
    have hnext : (h e).next = some (xs.headD stop) := (chain_headD hl).1
    have hrest : (swapLinks h e).Linked (xs ++ [stop]) := by
      refine LinkedHeap.Linked.of_eq (fun x hx => ?_) (LinkedHeap.Linked.tail hl)
      rw [swapLinks_eq, swapAll_of_notMem]
      exact fun hxe => he (mem_singleton.mp hxe ▸ hx)
    have hstep : (swapLinks h e e).prev = some (xs.headD stop) := by
      rw [swapLinks_eq, swapAll_of_mem (mem_singleton.mpr rfl), hnext]
    rw [headD_cons, reverseLoop, if_neg hstop]
    simp only [hstep, some_bind]
    rw [ih hrest hnodup (Nat.lt_of_succ_lt_succ hfuel)]
    congr 1
    funext x
    by_cases hx : x = e
    · subst hx
      have hxs : x ∉ xs := fun hmem => he (mem_append_left _ hmem)
      rw [swapAll_of_notMem hxs, swapLinks_eq, swapAll_of_mem (mem_singleton.mpr rfl),
        swapAll_of_mem mem_cons_self]
    · simp [swapAll, swapLinks_eq, hx]

/-- **Swapped links run backwards.** -/
theorem linked_swapAll (hl : h.Linked xs) : (swapAll h xs).Linked xs.reverse := by
  refine isChain_reverse.mpr (List.IsChain.imp_neighbours ?_ hl)
  rintro a ha b hb ⟨hab, hba⟩
  refine ⟨?_, ?_⟩
  · rw [swapAll_of_mem (mem_of_mem_tail hb), hba]
  · rw [swapAll_of_mem (dropLast_subset xs ha), hab]

/-- **`list_reverse` of one list.** -/
theorem WellFormed.reverse (hw : WellFormed h list xs) :
    ∃ h', (∀ fuel, xs.length < fuel → listReverse fuel h list = some h') ∧
      WellFormed h' list xs.reverse ∧ ∀ x ∉ list.nodes xs, h' x = h x := by
  have hnodup := hw.nodup
  rcases eq_nil_or_concat xs with rfl | ⟨front, last, hlast⟩
  · -- an empty list is left alone
    have hempty : (h list.head).next = some list.tail := (hw.neighbours [] []).1.1
    exact ⟨h, fun fuel _ => by simp [listReverse, listEmpty, listBegin, hempty], hw, fun _ _ => rfl⟩
  obtain ⟨first, rest, hfirst⟩ : ∃ first rest, xs = first :: rest :=
    exists_cons_of_ne_nil (by simp [hlast])
  have hmemf : first ∈ xs := by simp [hfirst]
  have hmeml : last ∈ xs := by simp [hlast]
  obtain ⟨hhead, hrest⟩ := nodup_cons.mp hnodup
  have htail : list.tail ∉ xs := fun hmem => (nodup_append.mp hrest).2.2 _ hmem _ (by simp) rfl
  have hhead' : list.head ∉ xs := fun hmem => hhead (mem_append_left _ hmem)
  have hends : list.head ≠ list.tail := fun heq => hhead (by simp [heq])
  -- the links at the two ends
  have hlinkf : h.Link list.head first := by
    have hl := (WellFormed.neighbours [] xs hw).1
    rwa [hfirst] at hl
  have hlinkl : h.Link last list.tail := by
    have hl := (WellFormed.neighbours xs [] (by rwa [append_nil])).1
    rwa [hlast, concat_eq_append, getLastD_concat] at hl
  have hinner : h.Linked (xs ++ [list.tail]) := LinkedHeap.Linked.tail hw.linked
  have hperm : (list.nodes xs.reverse).Perm (list.nodes xs) :=
    ((reverse_perm xs).append_right [list.tail]).cons list.head
  refine ⟨((swapAll h xs).connect list.head last).connect first list.tail, fun fuel hfuel => ?_,
    ⟨?_, ?_, ?_, ?_⟩, ?_⟩
  · have hloop : reverseLoop fuel h first list.tail = some (swapAll h xs) := by
      have hloop := reverseLoop_eq hinner hrest hfuel
      rwa [hfirst, headD_cons, ← hfirst] at hloop
    have hempty : listEmpty h list = false := by
      have hne : first ≠ list.tail := fun heq => htail (heq ▸ hmemf)
      simp [listEmpty, listBegin, hlinkf.1, hne]
    have hbegin : listBegin h list = some first := hlinkf.1
    have hswapped : swapEnds (swapAll h xs) list
        = some (((swapAll h xs).connect list.head last).connect first list.tail) := by
      refine swapEnds_eq ?_ ?_ ?_ ?_ (fun heq => hhead' (heq ▸ hmemf))
        fun heq => htail (heq ▸ hmeml)
      · rw [swapAll_of_notMem hhead', hlinkf.1]
      · rw [swapAll_of_notMem htail, hlinkl.2]
      · rw [swapAll_of_mem hmeml, hlinkl.1]
      · rw [swapAll_of_mem hmemf, hlinkf.2]
    simp only [listReverse, hempty, hbegin, hloop, hswapped, Bool.false_eq_true, if_false,
      some_bind]
  · rw [prev_connect, if_neg hends, prev_connect, if_neg fun heq : list.head = last => hhead' (heq ▸
      hmeml), swapAll_of_notMem hhead', hw.head_prev]
  · rw [next_connect, if_neg fun heq : list.tail = first => htail (heq ▸ hmemf), next_connect,
      if_neg (Ne.symm hends), swapAll_of_notMem htail, hw.tail_next]
  · refine LinkedHeap.Linked.paste [] [] ?_ ?_ ?_ (.singleton _)
      (linked_swapAll hinner.append_left) (.singleton _)
    · simp [hlast]
    · simp [hfirst]
    · exact hperm.nodup_iff.mpr hnodup
  · exact hperm.nodup_iff.mpr hnodup
  · intro x hx
    have hx' : x ∉ xs := fun hmem => hx (by simp [nodes, hmem])
    rw [connect_of_ne, connect_of_ne, swapAll_of_notMem hx']
    · rintro rfl; exact hx (by simp [nodes])
    · rintro rfl; exact hx' hmeml
    · rintro rfl; exact hx' hmemf
    · rintro rfl; exact hx (by simp [nodes])

/-! ## Traversal -/

section
omit [DecidableEq E]

theorem listNext_eq {e n : E} (hn : (h e).next = some n) : listNext h e = some n := by
  have hassert : (isHead h e || isInterior h e) = true := by
    unfold isHead isInterior
    cases (h e).prev <;> simp [hn]
  simp only [listNext, assert_of hassert, hn, some_bind]

theorem listPrev_eq {e p : E} (hp : (h e).prev = some p) : listPrev h e = some p := by
  simp only [listPrev, assert_of (interior_or_tail hp), hp, some_bind]

end

/-- A loop along a chain visits its elements. -/
theorem visit_eq {advance : E → Option E} {stop : E} {fuel : Nat}
    (hchain : (xs ++ [stop]).IsChain fun a b => advance a = some b) (hstop : stop ∉ xs)
    (hfuel : xs.length < fuel) : visit advance fuel (xs.headD stop) stop = some xs := by
  induction xs generalizing fuel with
  | nil =>
    obtain ⟨fuel, rfl⟩ := Nat.exists_eq_add_one.mpr hfuel
    simp [visit]
  | cons e xs ih =>
    obtain ⟨fuel, rfl⟩ := Nat.exists_eq_add_one.mpr (Nat.zero_lt_of_lt hfuel)
    have hne : e ≠ stop := fun heq => hstop (heq ▸ mem_cons_self)
    have hnext : advance e = some (xs.headD stop) := chain_headD hchain
    have hrest := ih (List.IsChain.tail hchain)
      (fun hmem => hstop (mem_cons_of_mem e hmem)) (Nat.lt_of_succ_lt_succ hfuel)
    simp only [headD_cons, visit, if_neg hne, hnext, some_bind, hrest]

/-- **The traversals of a well-formed list** see its sequence, forwards and backwards. -/
theorem WellFormed.traversals (hw : WellFormed h list xs) {fuel : Nat} (hfuel : xs.length < fuel) :
    forward fuel h list = some xs ∧ backward fuel h list = some xs.reverse := by
  obtain ⟨hhead, hrest⟩ := nodup_cons.mp hw.nodup
  have htail : list.tail ∉ xs := fun hmem => (nodup_append.mp hrest).2.2 _ hmem _ (by simp) rfl
  constructor
  · have hchain : (list.head :: (xs ++ [list.tail])).IsChain fun a b => (h a).next = some b :=
      hw.linked.imp fun a b hab => hab.1
    have hbegin : listBegin h list = some (xs.headD list.tail) := chain_headD hchain
    rw [forward, hbegin]
    refine visit_eq ?_ htail hfuel
    exact (List.IsChain.tail hchain).imp fun a b => listNext_eq
  · have hchain : (list.tail :: (xs.reverse ++ [list.head])).IsChain
        fun a b => (h a).prev = some b := by
      have hshape : list.tail :: (xs.reverse ++ [list.head]) = (list.nodes xs).reverse := by
        simp [nodes]
      rw [hshape]
      exact isChain_reverse.mpr (hw.linked.imp fun a b hab => hab.2)
    have hbegin : listRbegin h list = some (xs.reverse.headD list.head) := chain_headD hchain
    rw [backward, hbegin]
    refine visit_eq ?_ ?_ (by simpa using hfuel)
    · exact (List.IsChain.tail hchain).imp fun a b => listPrev_eq
    · exact fun hmem => hhead (mem_append_left _ (mem_reverse.mp hmem))

/-! ## Calls -/

variable {elem : E}

/-- The element is in none of the lists and none of their sentinels. -/
def Fresh (lists : ι → KernelList E) (seqs : ι → List E) (elem : E) : Prop :=
  ∀ i, elem ∉ (lists i).nodes (seqs i)

section
variable (hr : Represents h lists seqs)
include hr

theorem Represents.insert (xs ys : List E) (hseq : seqs i = xs ++ ys)
    (hfresh : Fresh lists seqs elem) :
    ∃ h', listInsert h (ys.headD (lists i).tail) elem = some h' ∧
      Represents h' lists (Function.update seqs i (xs ++ elem :: ys)) := by
  have hloose : Loose h lists seqs [elem] :=
    ⟨.singleton elem, nodup_singleton elem, fun j x hx => mem_singleton.mp hx ▸ hfresh j⟩
  have hpaste := hr.paste hloose hseq rfl rfl
  have hlink := ((hseq ▸ hr.wellFormed i).neighbours xs ys).1
  have hnot := hfresh i
  refine ⟨_, listInsert_eq hlink.2 ?_ ?_, by simpa using hpaste⟩
  · rintro rfl
    exact hnot (hseq ▸ (lists i).headD_mem_nodes xs ys)
  · intro heq
    exact hnot (heq ▸ hseq ▸ (lists i).getLastD_mem_nodes xs ys)

theorem Represents.remove (xs ys : List E) (hseq : seqs i = xs ++ elem :: ys) :
    ∃ h', listRemove h elem = some (h', some (ys.headD (lists i).tail)) ∧
      Represents h' lists (Function.update seqs i (xs ++ ys)) := by
  have hseq' : seqs i = xs ++ [elem] ++ ys := by simp [hseq]
  have hw := hr.wellFormed i
  obtain ⟨hbefore, hne⟩ := (hseq ▸ hw).neighbours xs (elem :: ys)
  obtain ⟨hafter, -⟩ := (hseq' ▸ hw).neighbours (xs ++ [elem]) ys
  rw [getLastD_concat] at hafter
  exact ⟨_, listRemove_eq hbefore.2 hafter.1 hne, (hr.cut hseq').1⟩

theorem Represents.splice {j : ι} {zs ws : List E} {first : E} {rest : List E}
    (hseq : seqs i = xs ++ first :: rest ++ ys)
    (hseq' : Function.update seqs i (xs ++ ys) j = zs ++ ws) :
    ∃ h', listSplice h (ws.headD (lists j).tail) first (ys.headD (lists i).tail) = some h' ∧
      Represents h' lists (Function.update (Function.update seqs i (xs ++ ys)) j
        (zs ++ first :: rest ++ ws)) := by
  obtain ⟨hcut, hloose⟩ := hr.cut hseq
  obtain ⟨front, last, hlast⟩ : ∃ front last, first :: rest = front ++ [last] :=
    ⟨_, _, (dropLast_append_getLast (cons_ne_nil first rest)).symm⟩
  have hpaste := hcut.paste hloose hseq' rfl (by rw [hlast, getLast?_concat])
  refine ⟨_, ?_, hpaste⟩
  have hw := hr.wellFormed i
  -- the neighbours inside the list the range is in
  have hfirst := WellFormed.neighbours xs (first :: rest ++ ys) (by simpa [hseq] using hw) |>.1
  have hfirst' := WellFormed.neighbours (xs ++ [first]) (rest ++ ys) (by simpa [hseq] using hw) |>.1
  have hlast' := WellFormed.neighbours (xs ++ front) (last :: ys)
    (by simpa [hseq, hlast] using hw) |>.1
  have hstop := WellFormed.neighbours (xs ++ front ++ [last]) ys
    (by simpa [hseq, hlast] using hw) |>.1
  rw [getLastD_concat] at hfirst' hstop
  -- what is left of the lists has no element of the range
  have hmemf : first ∈ first :: rest := mem_cons_self
  have hmeml : last ∈ first :: rest := by simp [hlast]
  have hapart := hloose.disjoint i
  have hapart' := hloose.disjoint j
  rw [Function.update_self] at hapart
  rw [hseq'] at hapart'
  have hq := ((hseq' ▸ hcut.wellFormed j).neighbours zs ws).1.2
  obtain ⟨b, hb⟩ : ∃ b, (h (ws.headD (lists j).tail)).prev = some b := by
    by_cases heq : ws.headD (lists j).tail = ys.headD (lists i).tail
    · exact ⟨_, heq ▸ hstop.2⟩
    · rw [prev_connect, if_neg heq] at hq
      exact ⟨_, hq⟩
  refine listSplice_eq hb hfirst.2 hfirst'.1 hlast'.2 hstop ?_ ?_ hq ?_ ?_
  · exact fun heq => hapart hmemf (heq ▸ (lists i).headD_mem_nodes xs ys)
  · exact fun heq => hapart hmeml (heq ▸ (lists i).getLastD_mem_nodes xs ys)
  · exact fun heq => hapart' hmemf (heq ▸ (lists j).headD_mem_nodes zs ws)
  · exact fun heq => hapart' hmeml (heq ▸ (lists j).getLastD_mem_nodes zs ws)

theorem Represents.reverse (i : ι) :
    ∃ h', (∀ fuel, (seqs i).length < fuel → listReverse fuel h (lists i) = some h') ∧
      Represents h' lists (Function.update seqs i (seqs i).reverse) := by
  obtain ⟨h', hcode, hw, hframe⟩ := (hr.wellFormed i).reverse
  refine ⟨h', hcode, hr.update hw (fun j hj x hx => ?_) fun j hj x hx hx' => ?_⟩
  · exact hframe x fun hxi => hr.disjoint j i hj hx hxi
  · refine hr.disjoint i j (Ne.symm hj) ?_ hx'
    simpa [nodes] using hx

omit [DecidableEq E] [DecidableEq ι] in
theorem Represents.listBegin_eq (i : ι) :
    listBegin h (lists i) = some ((seqs i).headD (lists i).tail) :=
  (WellFormed.neighbours [] (seqs i) (hr.wellFormed i)).1.1

section
omit [DecidableEq ι]

/-- A list with elements in it is not empty. -/
theorem Represents.not_listEmpty (hseq : seqs i ≠ []) : ¬listEmpty h (lists i) := by
  obtain ⟨x, rest, hcons⟩ := exists_cons_of_ne_nil hseq
  have hne : x ≠ (lists i).tail := ne_tail (hr.wellFormed i).nodup (by simp [hcons])
  rw [listEmpty, hr.listBegin_eq i, hcons]
  simpa using hne

theorem Represents.listEmpty_iff (i : ι) :
    listEmpty h (lists i) = true ↔ seqs i = [] := by
  refine ⟨fun hempty => ?_, fun hseq => ?_⟩
  · by_contra hseq
    exact hr.not_listEmpty hseq hempty
  · rw [listEmpty, hr.listBegin_eq i, hseq]
    simp

theorem Represents.listFront_eq (hseq : seqs i = elem :: xs) :
    listFront h (lists i) = some elem := by
  have hbegin := hr.listBegin_eq i
  have hne : ¬listEmpty h (lists i) := hr.not_listEmpty (by simp [hseq])
  rw [hseq, headD_cons, listBegin] at hbegin
  simp only [listFront, assert_of hne, hbegin, some_bind]

end
end

/-- A call of the list functions, on lists named by their index. -/
inductive ListCall (ι E : Type) where
  | insert (before elem : E)
  | pushFront (list : ι) (elem : E)
  | pushBack (list : ι) (elem : E)
  | remove (elem : E)
  | popFront (list : ι)
  | popBack (list : ι)
  | splice (before first last : E)
  | reverse (list : ι)

/-- What the code does in a call, and the element it returns, if any. -/
def ListCall.exec (fuel : Nat) (lists : ι → KernelList E) (h : LinkedHeap E) :
    ListCall ι E → Option (LinkedHeap E × Option E)
  | .insert before elem => (listInsert h before elem).map (·, none)
  | .pushFront i elem => (listPushFront h (lists i) elem).map (·, none)
  | .pushBack i elem => (listPushBack h (lists i) elem).map (·, none)
  | .remove elem => listRemove h elem
  | .popFront i => listPopFront h (lists i)
  | .popBack i => listPopBack h (lists i)
  | .splice before first last => (listSplice h before first last).map (·, none)
  | .reverse i => (listReverse fuel h (lists i)).map (·, none)

/-- A series of calls, with what each returns. -/
def execAll (fuel : Nat) (lists : ι → KernelList E) :
    LinkedHeap E → List (ListCall ι E) → Option (LinkedHeap E × List (Option E))
  | h, [] => some (h, [])
  | h, call :: calls => do
    let (h, result) ← call.exec fuel lists h
    let (h, results) ← execAll fuel lists h calls
    some (h, result :: results)

/-- **What a call means for the sequences.**  A place is named by the element that comes
after it, the tail at the end.  An inserted element is in none of the lists; a range is
moved to a place that is there once the range is gone. -/
inductive SeqCall (lists : ι → KernelList E) (seqs : ι → List E) :
    ListCall ι E → Option E → (ι → List E) → Prop
  | insert {i : ι} {elem : E} (xs ys : List E) (hseq : seqs i = xs ++ ys)
      (hfresh : Fresh lists seqs elem) :
      SeqCall lists seqs (.insert (ys.headD (lists i).tail) elem) none
        (update seqs i (xs ++ elem :: ys))
  | pushFront {i : ι} {elem : E} (hfresh : Fresh lists seqs elem) :
      SeqCall lists seqs (.pushFront i elem) none (update seqs i (elem :: seqs i))
  | pushBack {i : ι} {elem : E} (hfresh : Fresh lists seqs elem) :
      SeqCall lists seqs (.pushBack i elem) none (update seqs i (seqs i ++ [elem]))
  | remove {i : ι} {elem : E} (xs ys : List E) (hseq : seqs i = xs ++ elem :: ys) :
      SeqCall lists seqs (.remove elem) (some (ys.headD (lists i).tail))
        (update seqs i (xs ++ ys))
  | popFront {i : ι} {elem : E} (xs : List E) (hseq : seqs i = elem :: xs) :
      SeqCall lists seqs (.popFront i) (some elem) (update seqs i xs)
  | popBack {i : ι} {elem : E} (xs : List E) (hseq : seqs i = xs ++ [elem]) :
      SeqCall lists seqs (.popBack i) (some elem) (update seqs i xs)
  | spliceNothing {i : ι} {first : E} (xs ys : List E) (hseq : seqs i = xs ++ ys) :
      SeqCall lists seqs (.splice (ys.headD (lists i).tail) first first) none seqs
  | splice {i j : ι} {first : E} (xs rest ys zs ws : List E)
      (hseq : seqs i = xs ++ first :: rest ++ ys)
      (hseq' : update seqs i (xs ++ ys) j = zs ++ ws) :
      SeqCall lists seqs
        (.splice (ws.headD (lists j).tail) first (ys.headD (lists i).tail)) none
        (update (update seqs i (xs ++ ys)) j (zs ++ first :: rest ++ ws))
  | reverse {i : ι} :
      SeqCall lists seqs (.reverse i) none (update seqs i (seqs i).reverse)

/-- A series of calls on the sequences, with what each returns. -/
inductive SeqCalls (lists : ι → KernelList E) :
    (ι → List E) → List (ListCall ι E) → List (Option E) → (ι → List E) → Prop
  | nil {seqs : ι → List E} : SeqCalls lists seqs [] [] seqs
  | cons {seqs seqs' seqs'' : ι → List E} {call : ListCall ι E} {calls : List (ListCall ι E)}
      {result : Option E} {results : List (Option E)} (hcall : SeqCall lists seqs call result seqs')
      (hcalls : SeqCalls lists seqs' calls results seqs'') :
      SeqCalls lists seqs (call :: calls) (result :: results) seqs''

/-- **One call** does to the lists what it does to the sequences. -/
theorem Represents.call {call : ListCall ι E} {result : Option E} {seqs' : ι → List E}
    (hr : Represents h lists seqs) (hcall : SeqCall lists seqs call result seqs') :
    ∃ h' fuel₀, (∀ fuel, fuel₀ ≤ fuel → call.exec fuel lists h = some (h', result)) ∧
      Represents h' lists seqs' := by
  cases hcall with
  | insert xs ys hseq hfresh =>
    obtain ⟨h', hcode, hr'⟩ := hr.insert xs ys hseq hfresh
    exact ⟨h', 0, fun fuel _ => by rw [ListCall.exec, hcode]; rfl, hr'⟩
  | @pushFront i elem hfresh =>
    obtain ⟨h', hcode, hr'⟩ := hr.insert [] (seqs i) rfl hfresh
    refine ⟨h', 0, fun fuel _ => ?_, hr'⟩
    rw [ListCall.exec, listPushFront, hr.listBegin_eq i, some_bind, hcode]
    rfl
  | @pushBack i elem hfresh =>
    obtain ⟨h', hcode, hr'⟩ := hr.insert (seqs i) [] (append_nil _).symm hfresh
    rw [headD_nil] at hcode
    exact ⟨h', 0, fun fuel _ => by rw [ListCall.exec, listPushBack, hcode]; rfl, hr'⟩
  | remove xs ys hseq =>
    obtain ⟨h', hcode, hr'⟩ := hr.remove xs ys hseq
    exact ⟨h', 0, fun fuel _ => hcode, hr'⟩
  | @popFront i elem xs hseq =>
    obtain ⟨h', hcode, hr'⟩ := hr.remove [] xs hseq
    refine ⟨h', 0, fun fuel _ => ?_, hr'⟩
    simp only [ListCall.exec, listPopFront, hr.listFront_eq hseq, hcode, some_bind]
  | @popBack i elem xs hseq =>
    obtain ⟨h', hcode, hr'⟩ := hr.remove xs [] hseq
    refine ⟨h', 0, fun fuel _ => ?_, by simpa using hr'⟩
    have hback : listBack h (lists i) = some elem := by
      have hlink := (WellFormed.neighbours (seqs i) [] (by
        rw [append_nil]
        exact hr.wellFormed i)).1.2
      have hne : ¬listEmpty h (lists i) := hr.not_listEmpty (by simp [hseq])
      rw [hseq, getLastD_concat, headD_nil] at hlink
      simp only [listBack, assert_of hne, hlink, some_bind]
    simp only [ListCall.exec, listPopBack, hback, hcode, some_bind]
  | @spliceNothing i first xs ys hseq =>
    refine ⟨h, 0, fun fuel _ => ?_, hr⟩
    have hlink := ((hseq ▸ hr.wellFormed i).neighbours xs ys).1.2
    simp only [ListCall.exec, listSplice, assert_of (interior_or_tail hlink), if_true, some_bind,
      Option.map_some]
  | splice xs rest ys zs ws hseq hseq' =>
    obtain ⟨h', hcode, hr'⟩ := hr.splice hseq hseq'
    exact ⟨h', 0, fun fuel _ => by rw [ListCall.exec, hcode]; rfl, hr'⟩
  | @reverse i =>
    obtain ⟨h', hcode, hr'⟩ := hr.reverse i
    refine ⟨h', (seqs i).length + 1, fun fuel hfuel => ?_, hr'⟩
    rw [ListCall.exec, hcode fuel hfuel]
    rfl

/-- **The lists implement sequences.**  Any series of calls on a family of lists runs
without a failed assertion, returns what it returns on the sequences, and leaves lists
that hold the sequences it leaves: linked both ways, disjoint, with the traversals from
both ends in agreement. -/
theorem lists_implement_sequences {calls : List (ListCall ι E)} {results : List (Option E)}
    {seqs' : ι → List E} (hr : Represents h lists seqs)
    (hcalls : SeqCalls lists seqs calls results seqs') :
    ∃ h' fuel₀, (∀ fuel, fuel₀ ≤ fuel → execAll fuel lists h calls = some (h', results)) ∧
      Represents h' lists seqs' ∧
      ∀ i fuel, (seqs' i).length < fuel →
        forward fuel h' (lists i) = some (seqs' i) ∧
          backward fuel h' (lists i) = some (seqs' i).reverse := by
  induction hcalls generalizing h with
  | nil => exact ⟨h, 0, fun _ _ => rfl, hr, fun i fuel hfuel => (hr.wellFormed i).traversals hfuel⟩
  | cons hcall _ ih =>
    obtain ⟨h₁, fuel₁, hcode₁, hr₁⟩ := hr.call hcall
    obtain ⟨h₂, fuel₂, hcode₂, hr₂⟩ := ih hr₁
    refine ⟨h₂, max fuel₁ fuel₂, fun fuel hfuel => ?_, hr₂⟩
    simp only [execAll, hcode₁ fuel (by omega), hcode₂ fuel (by omega), some_bind]

end Family

section Init
variable {h : LinkedHeap E} {list : KernelList E}

/-- **`list_init` makes an empty list.** -/
theorem wellFormed_listInit (hne : list.head ≠ list.tail) :
    WellFormed (listInit h list) list [] where
  head_prev := by simp [listInit, prev_setPrev, hne]
  tail_next := by simp [listInit, next_setNext]
  linked := by
    refine isChain_cons_cons.mpr ⟨⟨?_, ?_⟩, .singleton _⟩
    · simp [listInit, next_setNext, hne]
    · simp [listInit, prev_setPrev]
  nodup := by simp [nodes, hne]

theorem represents_listInit (hne : list.head ≠ list.tail) :
    Represents (listInit h list) (fun _ : Unit => list) fun _ => [] :=
  ⟨fun _ => wellFormed_listInit hne, fun _ _ hij => absurd rfl hij⟩

end Init

/-- A list made from scratch, two elements of which are put into another order. -/
theorem lists_implement_sequences_turned :
    ∃ h' fuel₀, (∀ fuel, fuel₀ ≤ fuel →
      execAll fuel (fun _ : Unit => ⟨0, 1⟩) (listInit (fun _ => ⟨none, none⟩) ⟨0, 1⟩)
          [.pushBack () 2, .insert 2 3, .splice 3 2 1, .reverse (), .popFront ()]
        = some (h', [none, none, none, none, some 3])) ∧
      Represents h' (fun _ : Unit => ⟨0, 1⟩) (fun _ => [2]) ∧
      ∀ i fuel, [2].length < fuel → forward fuel h' ((fun _ : Unit => ⟨0, 1⟩) i) = some [2] ∧
        backward fuel h' ((fun _ : Unit => ⟨0, 1⟩) i) = some [2].reverse := by
  have hcalls : SeqCalls (fun _ : Unit => (⟨0, 1⟩ : KernelList Nat)) (fun _ => [])
      [.pushBack () 2, .insert 2 3, .splice 3 2 1, .reverse (), .popFront ()]
      [none, none, none, none, some 3] (fun _ => [2]) := by
    have hupdate : ∀ (seqs : Unit → List Nat) i xs, update seqs i xs = fun _ => xs :=
      fun seqs i xs => update_eq_const_of_subsingleton i xs seqs
    refine .cons (.pushBack (by simp [Fresh, nodes])) ?_
    rw [hupdate]
    refine .cons (.insert (i := ()) [] [2] rfl (by simp [Fresh, nodes])) ?_
    rw [hupdate]
    refine .cons (.splice (i := ()) (j := ()) [3] [] [] [] [3] rfl (by simp)) ?_
    rw [hupdate]
    refine .cons .reverse ?_
    rw [hupdate]
    refine .cons (.popFront [2] rfl) ?_
    rw [hupdate]
    exact .nil
  exact lists_implement_sequences (represents_listInit (by decide)) hcalls

/-- **Inserting an element for a second time** passes the assertions and leaves something
that is no list: the element becomes its own successor. -/
theorem insert_twice_loops : ∃ h h' : LinkedHeap Nat,
    Represents h (fun _ : Unit => ⟨0, 1⟩) (fun _ => [2, 3]) ∧ listInsert h 3 2 = some h' ∧
      ∀ seqs, ¬Represents h' (fun _ : Unit => ⟨0, 1⟩) seqs := by
  have hr : Represents (listInit (fun _ => ⟨none, none⟩) ⟨0, 1⟩) (fun _ : Unit => ⟨0, 1⟩)
      (fun _ => ([] : List Nat)) := represents_listInit (by decide)
  obtain ⟨h₁, -, hr₁⟩ := hr.insert (i := ()) [] [] rfl (show Fresh _ _ 3 by simp [Fresh, nodes])
  obtain ⟨h, -, hr₂⟩ := hr₁.insert (i := ()) [] [3] (by simp)
    (show Fresh _ _ 2 by simp [Fresh, nodes])
  rw [Function.update_eq_const_of_subsingleton] at hr₂
  have hprev : (h 3).prev = some 2 := ((hr₂.wellFormed ()).neighbours [2] [3]).1.2
  have hnext : (h 0).next = some 2 := ((hr₂.wellFormed ()).neighbours [] [2, 3]).1.1
  have hcode : listInsert h 3 2 = some
      ((((h.setPrev 2 (some 2)).setNext 2 (some 3)).setNext 2 (some 2)).setPrev 3 (some 2)) := by
    rw [listInsert, assert_of (interior_or_tail hprev)]
    simp [prev_setPrev, hprev]
  refine ⟨h, _, hr₂, hcode, fun seqs hr' => ?_⟩
  have hw := hr'.wellFormed ()
  have hfirst : (h 0).next = some ((seqs ()).headD 1) := by
    simpa [next_setNext] using (WellFormed.neighbours [] (seqs ()) hw).1.1
  cases hseq : seqs () with
  | nil => simp [hseq, hnext] at hfirst
  | cons x rest =>
    obtain rfl : x = 2 := by simpa [hseq, hnext, eq_comm] using hfirst
    obtain ⟨hlink, hne⟩ := WellFormed.neighbours [2] rest (by simpa [hseq] using hw)
    have hloop := hlink.1
    simp [next_setNext] at hloop hne
    exact hne hloop

end KernelList
end Pintos
