import Mathlib.Data.List.GetD
import Pintos.HashTable
import Pintos.KernelList

/-!
# Iterating over a hash table

`hash_first`, `hash_next` and `hash_apply` of `lib/kernel/hash.c`, on the lists as they are
in memory.  An iterator is a bucket and a place in its list.  `hash_first` puts it on the
list's head, as if that were an element, and `hash_next` goes on to the next element and,
as long as that is the end of a list, to the next bucket.

What is **left** of an iteration is what follows in the bucket and all that is in the later
buckets (`At`).  Every call of `hash_next` returns the first of it and leaves the rest
(`At.hashNext`).  So the calls return **every element once, in the order of `hash_apply`**,
and then the null pointer (`iteration_exact`): the elements of the set that the calls before
have made (`iteration_shows_set`).
-/

namespace Pintos
open List
open KernelList (listBegin listNext)

/-- `struct hash`, with the array of lists at `buckets`. -/
structure Hash (E : Type) where
  elemCnt : Nat
  bucketCnt : Nat
  buckets : Nat → KernelList E

/-- `struct hash_iterator`, over a table that does not change: the index of the bucket, and
the element.  A `struct hash_elem` is a `struct list_elem`. -/
structure HashIterator (E : Type) where
  bucket : Nat
  elem : Option E
  deriving DecidableEq

namespace Hash
variable {E σ : Type}

/-! ## The code -/

section Code
variable [DecidableEq E]

/-- The loop of `hash_apply` over a bucket, from `elem` up to the end, for at most `fuel`
rounds. -/
def applyBucket (action : σ → E → σ) (heap : LinkedHeap E) (stop : E) :
    Nat → E → σ → Option σ
  | 0, _, _ => none
  | fuel + 1, elem, s =>
    if elem = stop then
      some s
    else do
      let next ← listNext heap elem
      applyBucket action heap stop fuel next (action s elem)

/-- `hash_apply`, with an action that changes a state. -/
def hashApply (fuel : Nat) (action : σ → E → σ) (heap : LinkedHeap E) (t : Hash E) (s : σ) :
    Option σ :=
  (List.range t.bucketCnt).foldlM (fun s i => do
    applyBucket action heap (t.buckets i).tail fuel (← listBegin heap (t.buckets i)) s) s

/-- `hash_first`. -/
def hashFirst (t : Hash E) : HashIterator E :=
  ⟨0, some (t.buckets 0).head⟩

/-- The loop of `hash_next`, which leaves the ends of lists behind. -/
def skipEnds (heap : LinkedHeap E) (t : Hash E) : Nat → Nat → E → Option (HashIterator E)
  | 0, _, _ => none
  | rounds + 1, bucket, elem =>
    if elem = (t.buckets bucket).tail then
      if bucket + 1 ≥ t.bucketCnt then
        some ⟨bucket + 1, none⟩
      else do
        skipEnds heap t rounds (bucket + 1) (← listBegin heap (t.buckets (bucket + 1)))
    else
      some ⟨bucket, some elem⟩

/-- `hash_next`: the iterator afterwards, whose element is what it returns. -/
def hashNext (heap : LinkedHeap E) (t : Hash E) (i : HashIterator E) :
    Option (HashIterator E) := do
  skipEnds heap t t.bucketCnt i.bucket (← listNext heap (← i.elem))

/-- What calls of `hash_next` return, one after the other. -/
def results (heap : LinkedHeap E) (t : Hash E) : Nat → HashIterator E → Option (List (Option E))
  | 0, _ => some []
  | n + 1, i => do
    let i ← hashNext heap t i
    let rest ← results heap t n i
    some (i.elem :: rest)

end Code

/-! ## Well-formed tables -/

/-- What is in the buckets from `b` on. -/
def elementsFrom (t : Hash E) (seqs : Nat → List E) (b : Nat) : List E :=
  (List.range' b (t.bucketCnt - b)).flatMap seqs

/-- All elements, bucket by bucket. -/
def elements (t : Hash E) (seqs : Nat → List E) : List E :=
  t.elementsFrom seqs 0

/-- **A table in memory**: its buckets are lists, no element is in two of them, and `elem_cnt`
counts the elements. -/
structure WellFormed (heap : LinkedHeap E) (t : Hash E) (seqs : Nat → List E) : Prop where
  bucketCnt_pos : 0 < t.bucketCnt
  list : ∀ b, b < t.bucketCnt → KernelList.WellFormed heap (t.buckets b) (seqs b)
  apart : ∀ b c, b < t.bucketCnt → c < t.bucketCnt → b ≠ c → (seqs b).Disjoint (seqs c)
  elemCnt : t.elemCnt = (t.elements seqs).length

variable {heap : LinkedHeap E} {t : Hash E} {seqs : Nat → List E} {b : Nat}

theorem elementsFrom_of_lt (hb : b < t.bucketCnt) :
    t.elementsFrom seqs b = seqs b ++ t.elementsFrom seqs (b + 1) := by
  obtain ⟨n, hn⟩ : ∃ n, t.bucketCnt - b = n + 1 := ⟨t.bucketCnt - b - 1, by omega⟩
  rw [elementsFrom, elementsFrom, hn, range'_succ, flatMap_cons,
    show t.bucketCnt - (b + 1) = n by omega]

theorem elementsFrom_of_ge (hb : t.bucketCnt ≤ b) : t.elementsFrom seqs b = [] := by
  rw [elementsFrom, Nat.sub_eq_zero_of_le hb]
  rfl

theorem elements_eq : t.elements seqs = (List.range t.bucketCnt).flatMap seqs := by
  rw [elements, elementsFrom, Nat.sub_zero, range_eq_range']

theorem mem_elements {e : E} : e ∈ t.elements seqs ↔ ∃ b, b < t.bucketCnt ∧ e ∈ seqs b := by
  simp [elements_eq]

namespace WellFormed
variable (h : WellFormed heap t seqs)
include h

theorem nodup : (t.elements seqs).Nodup := by
  rw [elements_eq]
  refine nodup_flatMap.mpr ⟨fun b hb => ?_, ?_⟩
  · have hnodup := (h.list b (mem_range.mp hb)).nodup
    exact (nodup_append.mp (nodup_cons.mp hnodup).2).1
  · refine nodup_range.imp_of_mem fun {b c} hb hc hne => ?_
    exact h.apart b c (mem_range.mp hb) (mem_range.mp hc) hne

/-- A bucket has no more elements than the table. -/
theorem length_le (hb : b < t.bucketCnt) :
    (seqs b).length ≤ t.elemCnt := by
  have hsub : List.Sublist (seqs b) (t.elements seqs) := by
    rw [elements_eq, flatMap_def]
    exact sublist_flatten_of_mem (mem_map_of_mem (mem_range.mpr hb))
  exact h.elemCnt ▸ hsub.length_le

/-! ## What an iteration returns -/

/-- The place between two elements of a bucket. -/
theorem listNext_eq (hb : b < t.bucketCnt) {xs ys : List E} (hseq : seqs b = xs ++ ys) :
    listNext heap (xs.getLastD (t.buckets b).head) = some (ys.headD (t.buckets b).tail) :=
  KernelList.listNext_eq ((hseq ▸ h.list b hb).neighbours xs ys).1.1

theorem listBegin_eq (hb : b < t.bucketCnt) :
    listBegin heap (t.buckets b) = some ((seqs b).headD (t.buckets b).tail) :=
  (KernelList.WellFormed.neighbours [] (seqs b) (h.list b hb)).1.1

end WellFormed

/-- **The iterator is in front of what is left.** -/
def At (t : Hash E) (seqs : Nat → List E) (i : HashIterator E) (left : List E) : Prop :=
  i.bucket < t.bucketCnt ∧ ∃ xs ys, seqs i.bucket = xs ++ ys ∧
    i.elem = some (xs.getLastD (t.buckets i.bucket).head) ∧
    left = ys ++ t.elementsFrom seqs (i.bucket + 1)

theorem At.first (h : WellFormed heap t seqs) : t.At seqs t.hashFirst (t.elements seqs) :=
  ⟨h.bucketCnt_pos, [], seqs 0, rfl, rfl, elementsFrom_of_lt h.bucketCnt_pos⟩

variable [DecidableEq E]

/-- **The loop of `hash_next`** stops at the first of what is left, and at the null pointer if
nothing is. -/
theorem WellFormed.skipEnds (h : WellFormed heap t seqs) {rounds : Nat} (hb : b < t.bucketCnt)
    (hrounds : t.bucketCnt - b ≤ rounds) (xs ys : List E) (hseq : seqs b = xs ++ ys) :
    ∃ i, t.skipEnds heap rounds b (ys.headD (t.buckets b).tail) = some i ∧
      i.elem = (ys ++ t.elementsFrom seqs (b + 1)).head? ∧
      (i.elem ≠ none → t.At seqs i (ys ++ t.elementsFrom seqs (b + 1)).tail) := by
  -- every round that does not stop goes to a later bucket
  induction rounds generalizing b xs ys with
  | zero => omega
  | succ rounds ih =>
    cases ys with
    | cons y ys =>
      have hne : y ≠ (t.buckets b).tail :=
        KernelList.ne_tail (h.list b hb).nodup (by simp [hseq])
      refine ⟨⟨b, some y⟩, if_neg hne, rfl, fun _ => ⟨hb, xs ++ [y], ys, ?_, ?_, rfl⟩⟩
      · rw [hseq, append_assoc, singleton_append]
      · rw [getLastD_concat]
    | nil =>
      rw [headD_nil, Hash.skipEnds, if_pos rfl, nil_append]
      by_cases hlast : b + 1 ≥ t.bucketCnt
      · rw [if_pos hlast, elementsFrom_of_ge hlast]
        exact ⟨_, rfl, rfl, fun hne => absurd rfl hne⟩
      · rw [if_neg hlast, h.listBegin_eq (Nat.not_le.mp hlast), some_bind,
          elementsFrom_of_lt (Nat.not_le.mp hlast)]
        exact ih (Nat.not_le.mp hlast) (by omega) [] (seqs (b + 1)) rfl

section
variable {i : HashIterator E} {left : List E} (h : WellFormed heap t seqs) (hi : t.At seqs i left)
include h hi

/-- **One call of `hash_next`** returns the first of what is left. -/
theorem At.hashNext :
    ∃ i', t.hashNext heap i = some i' ∧ i'.elem = left.head? ∧
      (left ≠ [] → t.At seqs i' left.tail) := by
  obtain ⟨hb, xs, ys, hseq, helem, rfl⟩ := hi
  obtain ⟨i', hcode, hreturn, hleft⟩ := h.skipEnds hb (Nat.sub_le _ _) xs ys hseq
  refine ⟨i', ?_, hreturn, fun hne => hleft ?_⟩
  · rw [Hash.hashNext, helem, some_bind, h.listNext_eq hb hseq]
    exact hcode
  · rwa [hreturn, ne_eq, head?_eq_none_iff]

/-- **All calls** return what is left, and then the null pointer. -/
theorem At.results :
    t.results heap (left.length + 1) i = some (left.map some ++ [none]) := by
  induction left generalizing i with
  | nil =>
    obtain ⟨i', hcode, hreturn, -⟩ := hi.hashNext h
    simp only [Hash.results, length_nil, hcode, hreturn, some_bind]
    rfl
  | cons e left ih =>
    obtain ⟨i', hcode, hreturn, hleft⟩ := hi.hashNext h
    have hrest := ih (hleft (cons_ne_nil e left))
    rw [length_cons, Hash.results, hcode, some_bind, hrest, some_bind, hreturn]
    rfl

end

/-! ## What `hash_apply` does -/

/-- The loop over a bucket calls the action for what is left of it. -/
theorem WellFormed.applyBucket (h : WellFormed heap t seqs) (action : σ → E → σ)
    (hb : b < t.bucketCnt) (xs ys : List E) (hseq : seqs b = xs ++ ys) {fuel : Nat}
    (hfuel : ys.length < fuel) (s : σ) :
    applyBucket action heap (t.buckets b).tail fuel (ys.headD (t.buckets b).tail) s =
      some (ys.foldl action s) := by
  induction ys generalizing xs fuel s with
  | nil =>
    obtain ⟨fuel, rfl⟩ := Nat.exists_eq_add_one.mpr hfuel
    exact if_pos rfl
  | cons y ys ih =>
    obtain ⟨fuel, rfl⟩ := Nat.exists_eq_add_one.mpr (Nat.zero_lt_of_lt hfuel)
    have hne : y ≠ (t.buckets b).tail := KernelList.ne_tail (h.list b hb).nodup (by simp [hseq])
    have hseq' : seqs b = (xs ++ [y]) ++ ys := by rw [hseq, append_assoc]; rfl
    have hnext := h.listNext_eq hb hseq'
    rw [getLastD_concat] at hnext
    rw [headD_cons, Hash.applyBucket, if_neg hne, hnext, some_bind, foldl_cons]
    exact ih (xs ++ [y]) hseq' (Nat.lt_of_succ_lt_succ hfuel) (action s y)

/-- **`hash_apply` calls the action for every element**, bucket by bucket. -/
theorem WellFormed.hashApply (h : WellFormed heap t seqs) (action : σ → E → σ) {fuel : Nat}
    (hfuel : t.elemCnt < fuel) (s : σ) :
    hashApply fuel action heap t s = some ((t.elements seqs).foldl action s) := by
  have hloop : ∀ bs : List Nat, (∀ b ∈ bs, b < t.bucketCnt) → ∀ s,
      bs.foldlM (fun s i => do
        Hash.applyBucket action heap (t.buckets i).tail fuel
          (← listBegin heap (t.buckets i)) s) s = some ((bs.flatMap seqs).foldl action s) := by
    intro bs hbs
    induction bs with
    | nil => exact fun s => rfl
    | cons b bs ih =>
      intro s
      have hb := hbs b mem_cons_self
      have hround := h.applyBucket action hb [] (seqs b) rfl
        (Nat.lt_of_le_of_lt (h.length_le hb) hfuel) s
      have hrest := ih (fun b hb => hbs b (mem_cons_of_mem _ hb))
      simp only [foldlM_cons, h.listBegin_eq hb, hround, some_bind, flatMap_cons, foldl_append, hrest]
  rw [elements_eq]
  exact hloop _ (fun b hb => mem_range.mp hb) s

/-- **Iteration is exact.**  After `hash_first`, as many calls of `hash_next` as there are
elements return every element once, in the order in which `hash_apply` calls its action, and
the next call returns the null pointer. -/
theorem iteration_exact (h : WellFormed heap t seqs) :
    t.results heap (t.elemCnt + 1) t.hashFirst = some ((t.elements seqs).map some ++ [none]) ∧
      (t.elements seqs).length = t.elemCnt ∧ (t.elements seqs).Nodup ∧
      (∀ e, e ∈ t.elements seqs ↔ ∃ b, b < t.bucketCnt ∧ e ∈ seqs b) ∧
      ∀ (σ : Type) (action : σ → E → σ) (s : σ) (fuel : Nat), t.elemCnt < fuel →
        hashApply fuel action heap t s = some ((t.elements seqs).foldl action s) := by
  refine ⟨?_, h.elemCnt.symm, h.nodup, fun e => mem_elements, fun σ action s fuel hfuel =>
    h.hashApply action hfuel s⟩
  rw [h.elemCnt]
  exact (At.first h).results h

/-- Two elements in the middle bucket of three. -/
theorem iteration_exact_gaps : ∃ heap : LinkedHeap Nat, ∃ t : Hash Nat,
    t.WellFormed heap (fun b => if b = 1 then [6, 7] else []) ∧
      t.results heap 3 t.hashFirst = some [some 6, some 7, none] := by
  let heap : LinkedHeap Nat := fun n =>
    [⟨none, some 1⟩, ⟨some 0, none⟩, ⟨none, some 6⟩, ⟨some 7, none⟩, ⟨none, some 5⟩,
      ⟨some 4, none⟩, ⟨some 2, some 7⟩, ⟨some 6, some 3⟩].getD n ⟨none, none⟩
  let t : Hash Nat := ⟨2, 3, fun b => ⟨2 * b, 2 * b + 1⟩⟩
  have h : t.WellFormed heap fun b => if b = 1 then [6, 7] else [] := by
    refine ⟨by decide, fun b hb => ?_, fun b c _ _ hne => ?_, rfl⟩
    · rcases (by change b < 3 at hb; omega : b = 0 ∨ b = 1 ∨ b = 2) with rfl | rfl | rfl
      · exact ⟨rfl, rfl, isChain_pair.mpr ⟨rfl, rfl⟩, by decide⟩
      · refine ⟨rfl, rfl, ?_, by decide⟩
        exact isChain_cons_cons.mpr ⟨⟨rfl, rfl⟩, isChain_cons_cons.mpr
          ⟨⟨rfl, rfl⟩, isChain_pair.mpr ⟨rfl, rfl⟩⟩⟩
      · exact ⟨rfl, rfl, isChain_pair.mpr ⟨rfl, rfl⟩, by decide⟩
    · by_cases hb : b = 1
      · have hc : c ≠ 1 := fun hc => hne (hb.trans hc.symm)
        simp [hc]
      · simp [hb]
  exact ⟨heap, t, h, (iteration_exact h).1⟩

/-- The buckets of a table that implements a set, when they are in memory. -/
theorem wellFormed_of_implements {f : HashFuncs E} {table : HashTable E} {S : Finset E}
    (hI : HashTable.Implements f table S) (helemCnt : t.elemCnt = table.elemCnt)
    (hbucketCnt : t.bucketCnt = table.bucketCnt)
    (hlists : ∀ b, b < t.bucketCnt →
      KernelList.WellFormed heap (t.buckets b) (table.buckets.getD b [])) :
    WellFormed heap t (table.buckets.getD · []) ∧
      (t.elements (table.buckets.getD · [])).toFinset = S := by
  have hlength : table.buckets.length = t.bucketCnt := by rw [hI.filled.length, hbucketCnt]
  have hall : t.elements (table.buckets.getD · []) = table.buckets.flatten := by
    rw [elements_eq, ← hlength, flatMap_def]
    congr 1
    refine ext_getElem (by simp) fun b hb hb' => ?_
    simp [getElem?_eq_getElem hb']
  obtain ⟨hnodup, hset⟩ := hI.filled.flatten hI.pow
  refine ⟨⟨by have := hI.four_le; omega, hlists, fun b c hb hc hne e heb hec => ?_, ?_⟩, ?_⟩
  · have hmem : ∀ b, b < t.bucketCnt → e ∈ table.buckets.getD b [] →
        f.bucketIdx table.bucketCnt e = b := fun b hb he => by
      rw [getD_eq_getElem _ _ (hlength ▸ hb)] at he
      exact ((hI.filled.mem b _ (getElem?_eq_getElem (hlength ▸ hb)) e).mp he).2
    exact hne ((hmem b hb heb).symm.trans (hmem c hc hec))
  · rw [hall, helemCnt, hI.elemCnt, ← hset, toFinset_card_of_nodup hnodup]
  · rw [hall, hset]

/-- **Iteration shows the set.**  After any series of calls, on the table as it is then in
memory, `hash_first` and `hash_next` return the elements of the set that the calls have made,
each of them once. -/
theorem iteration_shows_set {f : HashFuncs E} (hf : f.Lawful) (places : HashElemPlaces E)
    (calls : List (HashCall E)) (hcalls : HashTable.AllAllowed f none calls) :
    ∃ h rs S, HashTable.execAll f none calls = some (h, rs) ∧
      HashTable.SetCalls f none calls rs S ∧
      ∀ table, h = some table → ∀ (heap : LinkedHeap E) (t : Hash E),
        t.elemCnt = table.elemCnt → t.bucketCnt = table.bucketCnt →
        (∀ b, b < t.bucketCnt →
          KernelList.WellFormed heap (t.buckets b) (table.buckets.getD b [])) →
        ∃ es : List E, es.Nodup ∧ S = some es.toFinset ∧
          t.results heap (t.elemCnt + 1) t.hashFirst = some (es.map some ++ [none]) := by
  obtain ⟨h, rs, S, hcode, hset, hI⟩ :=
    HashTable.calls_spec hf places calls (h := none) (S := none) trivial hcalls
  refine ⟨h, rs, S, hcode, hset, ?_⟩
  rintro table rfl heap t helemCnt hbucketCnt hlists
  cases S with
  | none => exact absurd hI id
  | some S =>
    obtain ⟨hwf, hmem⟩ := wellFormed_of_implements hI helemCnt hbucketCnt hlists
    refine ⟨_, hwf.nodup, congrArg some hmem.symm, ?_⟩
    rw [hwf.elemCnt]
    exact (At.first hwf).results hwf

/-- A table of four lists, with one element in the first. -/
theorem iteration_shows_set_one :
    ∃ (heap : LinkedHeap (Fin 9)) (t : Hash (Fin 9)) (es : List (Fin 9)), t.elemCnt = 1 ∧
      es.Nodup ∧ t.results heap 2 t.hashFirst = some (es.map some ++ [none]) := by
  let f : HashFuncs (Fin 9) := ⟨fun _ => 0, fun a b => a < b⟩
  have hlawful : f.Lawful :=
    ⟨{ irrefl := by decide, trans := by decide, incomp_trans := by decide }, fun _ _ _ => rfl⟩
  let places : HashElemPlaces (Fin 9) :=
    { addr e := 8 * e + 8
      addr_pos e := by omega
      fits e := by rw [unsignedSize]; omega
      apart a b hab := by omega }
  let heap : LinkedHeap (Fin 9) :=
    [⟨none, some 8⟩, ⟨some 8, none⟩, ⟨none, some 3⟩, ⟨some 2, none⟩, ⟨none, some 5⟩, ⟨some 4, none⟩,
      ⟨none, some 7⟩, ⟨some 6, none⟩, ⟨some 0, some 1⟩].get
  let t : Hash (Fin 9) := ⟨1, 4, fun b => ⟨Fin.ofNat 9 (2 * b), Fin.ofNat 9 (2 * b + 1)⟩⟩
  obtain ⟨h, rs, S, hcode, -, hshows⟩ :=
    iteration_shows_set hlawful places [.init true, .insert 8 true] (by decide)
  have hexec : HashTable.execAll f none [.init true, .insert 8 true] =
      some (some ⟨1, 4, [[8], [], [], []]⟩, [.bool true, .elem none]) := by decide +kernel
  cases hexec.symm.trans hcode
  have hlists (b : Nat) (hb : b < 4) :
      KernelList.WellFormed heap (t.buckets b) ([[8], [], [], []].getD b []) := by
    obtain rfl | rfl | rfl | rfl : b = 0 ∨ b = 1 ∨ b = 2 ∨ b = 3 := by omega
    · exact ⟨rfl, rfl, .cons_cons ⟨rfl, rfl⟩ (.cons_cons ⟨rfl, rfl⟩ (.singleton _)), by decide⟩
    all_goals exact ⟨rfl, rfl, .cons_cons ⟨rfl, rfl⟩ (.singleton _), by decide⟩
  obtain ⟨es, hnodup, -, hresults⟩ := hshows _ rfl heap t rfl rfl hlists
  exact ⟨heap, t, es, rfl, hnodup, hresults⟩

end Hash
end Pintos
