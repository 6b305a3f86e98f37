import Mathlib.Data.List.Chain
import Mathlib.Data.List.Nodup
import Mathlib.Logic.Function.Basic

/-!
# Doubly linked chains in a heap

A heap gives every address two links, `prev` and `next`.  A list of addresses is
**linked** when neighbours point at each other.  All link surgery on such chains is made
of one operation, `connect a b`, which makes `b` the successor of `a` and `a` the
predecessor of `b`: a segment is taken out by connecting what stood around it
(`Linked.cut`), and put somewhere else by connecting its two ends (`Linked.paste`).

Both lemmas rest on which links a chain reads: `next` of every address but the last and
`prev` of every address but the first.  A connection whose two writes avoid these leaves
the chain linked (`Linked.connect`).
-/

/-- **A chain changes its relation** where every neighbouring pair allows it; such a pair
has its first element before the last of the chain and its second after the first. -/
theorem List.IsChain.imp_neighbours {α : Type*} {R S : α → α → Prop} {l : List α}
    (himp : ∀ a ∈ l.dropLast, ∀ b ∈ l.tail, R a b → S a b) (hl : l.IsChain R) : l.IsChain S := by
  induction l with
  | nil => exact .nil
  | cons a rest ih =>
    cases rest with
    | nil => exact .singleton a
    | cons b rest =>
      obtain ⟨hab, hrest⟩ := isChain_cons_cons.mp hl
      refine isChain_cons_cons.mpr ⟨himp a (by simp) b (by simp) hab, ih ?_ hrest⟩
      intro c hc d hd
      exact himp c (by simp [hc]) d (mem_of_mem_tail hd)

/-- The two links of an address; `none` is the null pointer. -/
structure Links (E : Type) where
  prev : Option E
  next : Option E
  deriving DecidableEq

/-- A heap of links. -/
abbrev LinkedHeap (E : Type) := E → Links E

namespace LinkedHeap
open List

section Linked
variable {E : Type} {h h' : LinkedHeap E} {ns ps qs : List E} {a b : E}

/-- Two heaps with the same links are the same. -/
theorem ext_links (hprev : ∀ x, (h x).prev = (h' x).prev)
    (hnext : ∀ x, (h x).next = (h' x).next) : h = h' := by
  funext x
  have hp := hprev x
  have hn := hnext x
  cases hx : h x
  cases hx' : h' x
  simp_all

/-- `a` and `b` point at each other. -/
def Link (h : LinkedHeap E) (a b : E) : Prop :=
  (h a).next = some b ∧ (h b).prev = some a

/-- The addresses are linked in this order. -/
def Linked (h : LinkedHeap E) (ns : List E) : Prop :=
  ns.IsChain h.Link

/-- **The links a chain reads** decide whether it is linked. -/
theorem Linked.congr (hnext : ∀ a ∈ ns.dropLast, (h' a).next = (h a).next)
    (hprev : ∀ b ∈ ns.tail, (h' b).prev = (h b).prev) (hl : h.Linked ns) : h'.Linked ns := by
  refine List.IsChain.imp_neighbours ?_ hl
  rintro a ha b hb ⟨hab, hba⟩
  exact ⟨(hnext a ha).trans hab, (hprev b hb).trans hba⟩

theorem Linked.of_eq (heq : ∀ a ∈ ns, h' a = h a) (hl : h.Linked ns) : h'.Linked ns :=
  hl.congr (fun a ha => by rw [heq a (dropLast_subset ns ha)])
    fun b hb => by rw [heq b (mem_of_mem_tail hb)]

theorem Linked.append_left (hl : h.Linked (ps ++ qs)) : h.Linked ps :=
  List.IsChain.left_of_append hl

theorem Linked.append_right (hl : h.Linked (ps ++ qs)) : h.Linked qs :=
  List.IsChain.right_of_append hl

theorem Linked.tail (hl : h.Linked (a :: qs)) : h.Linked qs :=
  List.IsChain.tail hl

theorem Linked.link (hl : h.Linked (ps ++ a :: b :: qs)) : h.Link a b :=
  (isChain_append_cons_cons.mp hl).2.1

/-- The part up to an address, with it. -/
theorem Linked.upto (hl : h.Linked (ps ++ a :: qs)) : h.Linked (ps ++ [a]) :=
  (isChain_split.mp hl).1

/-- The part behind an address, without it. -/
theorem Linked.behind (hl : h.Linked (ps ++ a :: qs)) : h.Linked qs :=
  hl.append_right.tail

end Linked

variable {E : Type} [DecidableEq E]

/-! ## Writes -/

/-- `a->prev = p`. -/
def setPrev (h : LinkedHeap E) (a : E) (p : Option E) : LinkedHeap E :=
  Function.update h a { h a with prev := p }

/-- `a->next = n`. -/
def setNext (h : LinkedHeap E) (a : E) (n : Option E) : LinkedHeap E :=
  Function.update h a { h a with next := n }

section
variable (h : LinkedHeap E) (a x : E)
include h a x

theorem prev_setPrev (p : Option E) :
    (h.setPrev a p x).prev = if x = a then p else (h x).prev := by
  by_cases hx : x = a
  · subst hx; simp [setPrev]
  · simp [setPrev, hx]

@[simp] theorem next_setPrev (p : Option E) :
    (h.setPrev a p x).next = (h x).next := by
  by_cases hx : x = a
  · subst hx; simp [setPrev]
  · simp [setPrev, hx]

theorem next_setNext (n : Option E) :
    (h.setNext a n x).next = if x = a then n else (h x).next := by
  by_cases hx : x = a
  · subst hx; simp [setNext]
  · simp [setNext, hx]

@[simp] theorem prev_setNext (n : Option E) :
    (h.setNext a n x).prev = (h x).prev := by
  by_cases hx : x = a
  · subst hx; simp [setNext]
  · simp [setNext, hx]

end

/-- Makes `b` the successor of `a` and `a` the predecessor of `b`. -/
def connect (h : LinkedHeap E) (a b : E) : LinkedHeap E :=
  (h.setNext a (some b)).setPrev b (some a)

theorem prev_connect (h : LinkedHeap E) (a b x : E) :
    (h.connect a b x).prev = if x = b then some a else (h x).prev := by
  simp [connect, prev_setPrev]

theorem next_connect (h : LinkedHeap E) (a b x : E) :
    (h.connect a b x).next = if x = a then some b else (h x).next := by
  simp [connect, next_setNext]

theorem link_connect (h : LinkedHeap E) (a b : E) : (h.connect a b).Link a b :=
  ⟨by simp [next_connect], by simp [prev_connect]⟩

/-- A connection leaves every other address as it is. -/
theorem connect_of_ne (h : LinkedHeap E) {a b x : E} (ha : x ≠ a) (hb : x ≠ b) :
    h.connect a b x = h x := by
  simp [connect, setPrev, setNext, ha, hb]

/-! ## Cutting and joining chains -/

variable {h : LinkedHeap E} {ns ps qs mid : List E} {a b : E}

/-- A connection from the end of a chain, or from outside, to its beginning, or to
outside, leaves it linked. -/
theorem Linked.connect (ha : a ∉ ns.dropLast) (hb : b ∉ ns.tail) (hl : h.Linked ns) :
    (h.connect a b).Linked ns := by
  refine hl.congr (fun x hx => ?_) fun x hx => ?_
  · rw [next_connect, if_neg fun he : x = a => ha (he ▸ hx)]
  · rw [prev_connect, if_neg fun he : x = b => hb (he ▸ hx)]

/-- **Two chains are joined** by connecting the end of one with the beginning of the
other. -/
theorem Linked.join (hnodup : (ps ++ a :: b :: qs).Nodup) (hl : h.Linked (ps ++ [a]))
    (hr : h.Linked (b :: qs)) : (h.connect a b).Linked (ps ++ a :: b :: qs) := by
  obtain ⟨-, hqs, hdisj⟩ := nodup_append.mp hnodup
  obtain ⟨ha, hqs⟩ := nodup_cons.mp hqs
  obtain ⟨hb, -⟩ := nodup_cons.mp hqs
  refine isChain_append_cons_cons.mpr ⟨?_, h.link_connect a b, ?_⟩
  · refine Linked.connect ?_ ?_ hl
    · rw [dropLast_concat]
      exact fun hmem => hdisj a hmem a (by simp) rfl
    · intro hmem
      rcases mem_append.mp (mem_of_mem_tail hmem) with hmem | hmem
      · exact hdisj b hmem b (by simp) rfl
      · exact ha (by rw [mem_singleton.mp hmem]; simp)
  · refine Linked.connect ?_ hb hr
    exact fun hmem => ha (dropLast_subset _ hmem)

/-- **Taking a segment out** by connecting what stood around it; the segment stays
linked in itself. -/
theorem Linked.cut (hnodup : (ps ++ a :: (mid ++ b :: qs)).Nodup)
    (hl : h.Linked (ps ++ a :: (mid ++ b :: qs))) :
    (h.connect a b).Linked (ps ++ a :: b :: qs) ∧ (h.connect a b).Linked mid := by
  have hsub : (ps ++ a :: b :: qs).Sublist (ps ++ a :: (mid ++ b :: qs)) :=
    (List.Sublist.refl ps).append ((sublist_append_right mid _).cons_cons a)
  refine ⟨Linked.join (hnodup.sublist hsub) hl.upto hl.behind.append_right, ?_⟩
  obtain ⟨ha, hmid⟩ := nodup_cons.mp (nodup_append.mp hnodup).2.1
  have hb : b ∉ mid := fun hmem => (nodup_append.mp hmid).2.2 b hmem b (by simp) rfl
  refine hl.behind.append_left.connect (fun hmem => ha ?_) fun hmem => hb ?_
  · exact mem_append_left _ (dropLast_subset _ hmem)
  · exact mem_of_mem_tail hmem

/-- **Putting a segment in**: its first address is connected with what comes before and
its last with what comes after. -/
theorem Linked.paste (ps qs : List E) {first last : E} (hfirst : mid.head? = some first)
    (hlast : mid.getLast? = some last) (hnodup : (ps ++ a :: (mid ++ b :: qs)).Nodup)
    (hl : h.Linked (ps ++ [a])) (hmid : h.Linked mid) (hr : h.Linked (b :: qs)) :
    ((h.connect a first).connect last b).Linked (ps ++ a :: (mid ++ b :: qs)) := by
  obtain ⟨rest, rfl⟩ : ∃ rest, mid = first :: rest := head?_eq_some_iff.mp hfirst
  obtain ⟨front, hfront⟩ := getLast?_eq_some_iff.mp hlast
  obtain ⟨ha, hseg⟩ := nodup_cons.mp (nodup_append.mp hnodup).2.1
  have hapart := (nodup_append.mp hseg).2.2
  -- the segment goes behind the left part, then the right part behind both
  have hleft : (h.connect a first).Linked (ps ++ a :: first :: rest) := by
    refine Linked.join (hnodup.sublist ?_) hl hmid
    exact (List.Sublist.refl ps).append ((sublist_append_left (first :: rest) _).cons_cons a)
  have hright : (h.connect a first).Linked (b :: qs) := by
    refine hr.connect (fun hmem => ha ?_) fun hmem => ?_
    · exact mem_append_right _ (dropLast_subset _ hmem)
    · exact hapart first (by simp) first (mem_cons_of_mem b hmem) rfl
  have hshape : ps ++ a :: (first :: rest ++ b :: qs) = (ps ++ a :: front) ++ last :: b :: qs := by
    rw [hfront]
    simp
  rw [hshape] at hnodup ⊢
  refine Linked.join hnodup ?_ hright
  have heq : ps ++ a :: front ++ [last] = ps ++ a :: first :: rest := by
    rw [hfront]
    simp
  rwa [heq]

end LinkedHeap
