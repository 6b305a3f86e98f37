import Mathlib.Algebra.Group.Nat.Defs
import Mathlib.Data.Finset.Card
import Mathlib.Data.List.Perm.Subperm
import Mathlib.Order.Bounds.Defs
import Mathlib.Order.Defs.Unbundled
import Pintos.Basic

/-!
# Hash tables

`lib/kernel/hash.c`.  A table is an array of buckets, each of which is a list.  Every
insertion and every deletion may change the number of buckets and then moves all elements,
one after the other, from the old buckets to the front of the new ones; if there is no
memory for the new buckets, the old ones stay.

The lists are sequences here, which is what `lib/kernel/list.c` implements.  `malloc`
succeeds or fails with every call as it likes.

**The table implements a finite set** with at most one element of each class of equal
elements (`implements_set`), whatever the hash function and the order are, provided that
equal elements have equal hashes.
-/

namespace Pintos
open List

/-- What a table is made of: `hash_hash_func` and `hash_less_func`. -/
structure HashFuncs (E : Type) where
  hash : E → BitVec 32
  less : E → E → Bool

namespace HashFuncs
variable {E : Type} (f : HashFuncs E)

/-- How `find_elem` tells that two elements are equal. -/
def equal (a b : E) : Bool :=
  !f.less a b && !f.less b a

/-- The index in `find_bucket`. -/
def bucketIdx (bucketCnt : Nat) (e : E) : Nat :=
  (f.hash e).toNat &&& (bucketCnt - 1)

/-- What is asked of the functions: `less` is a strict weak order, and equal elements have
equal hashes. -/
structure Lawful : Prop where
  order : IsStrictWeakOrder E fun a b => f.less a b = true
  hash_eq : ∀ a b, f.equal a b = true → f.hash a = f.hash b

variable {f}

theorem equal_iff {a b : E} : f.equal a b = true ↔ ¬f.less a b = true ∧ ¬f.less b a = true := by
  simp [equal]

theorem equal_symm {a b : E} (h : f.equal a b = true) : f.equal b a = true :=
  equal_iff.mpr (equal_iff.mp h).symm

end HashFuncs

/-- Where the elements are in memory.  A `struct hash_elem` takes 8 bytes, none is at the
null pointer, and no two overlap. -/
structure HashElemPlaces (E : Type) where
  addr : E → Nat
  addr_pos : ∀ e, 0 < addr e
  fits : ∀ e, addr e + 8 ≤ unsignedSize
  apart : ∀ a b, a ≠ b → addr a + 8 ≤ addr b ∨ addr b + 8 ≤ addr a

/-- There is no room for more than so many elements. -/
theorem HashElemPlaces.length_lt {E : Type} (places : HashElemPlaces E) {es : List E}
    (hes : es.Nodup) : es.length < 536870912 := by
  have hnodup : (es.map fun e => (places.addr e - 1) / 8).Nodup := by
    refine (nodup_map_iff_inj_on hes).mpr fun a _ b _ heq => ?_
    by_contra hab
    have ha := places.addr_pos a
    have hb := places.addr_pos b
    have happart := places.apart a b hab
    omega
  have hsubset : (es.map fun e => (places.addr e - 1) / 8) ⊆ List.range 536870911 := by
    intro n hn
    obtain ⟨e, -, rfl⟩ := mem_map.mp hn
    have hfits := places.fits e
    rw [unsignedSize] at hfits
    rw [mem_range]
    omega
  have hle := (hnodup.subperm hsubset).length_le
  rw [length_map, length_range] at hle
  omega

/-- `struct hash`, without the functions, which do not change. -/
structure HashTable (E : Type) where
  elemCnt : Nat
  bucketCnt : Nat
  buckets : List (List E)
  deriving DecidableEq

namespace HashTable

/-! ## The code -/

/-- `turn_off_least_1bit`. -/
def turnOffLeast1bit (x : Nat) : Nat :=
  x &&& (x - 1)

/-- `is_power_of_2`. -/
def isPowerOf2 (x : Nat) : Bool :=
  x != 0 && turnOffLeast1bit x == 0

/-- The loop of `rehash` that makes a number a power of 2, for at most `fuel` rounds. -/
def roundDown : Nat → Nat → Option Nat
  | 0, x => if isPowerOf2 x then some x else none
  | fuel + 1, x => if isPowerOf2 x then some x else roundDown fuel (turnOffLeast1bit x)

section Code
variable {E : Type} [DecidableEq E] (f : HashFuncs E)

/-- `find_elem`. -/
def findElem (bucket : List E) (e : E) : Option E :=
  bucket.find? fun hi => f.equal hi e

/-- `list_push_front` on the bucket with the index. -/
def pushFront (buckets : List (List E)) (idx : Nat) (e : E) : Option (List (List E)) := do
  assert (idx < buckets.length)
  some (buckets.modify idx (e :: ·))

/-- `insert_elem`. -/
def insertElem (h : HashTable E) (idx : Nat) (e : E) : Option (HashTable E) := do
  let buckets ← pushFront h.buckets idx e
  some { h with elemCnt := increment h.elemCnt, buckets }

/-- `remove_elem`.  `list_remove` takes the element out of the list it is in. -/
def removeElem (h : HashTable E) (e : E) : HashTable E :=
  { h with
    elemCnt := decrement h.elemCnt
    buckets := h.buckets.map (·.erase e) }

/-- The number of buckets `rehash` wants. -/
def newBucketCnt (elemCnt : Nat) : Option Nat :=
  let cnt := elemCnt / 2
  let cnt := if cnt < 4 then 4 else cnt
  roundDown cnt cnt

/-- `malloc` of an array of buckets and their `list_init`.  A `struct list` takes 16 bytes;
what does not fit into the block is not memory of the table. -/
def newBuckets (bucketCnt : Nat) : Option (List (List E)) := do
  assert (bucketCnt ≤ 16 * bucketCnt % unsignedSize / 16)
  some (List.replicate bucketCnt [])

/-- The loop of `rehash` that moves the elements. -/
def moveElems (bucketCnt : Nat) (old new : List (List E)) : Option (List (List E)) :=
  old.foldlM (fun new bucket =>
    bucket.foldlM (fun new e => pushFront new (f.bucketIdx bucketCnt e) e) new) new

/-- `rehash`.  `alloc` says whether `malloc` finds memory. -/
def rehash (h : HashTable E) (alloc : Bool) : Option (HashTable E) := do
  let cnt ← newBucketCnt h.elemCnt
  if cnt = h.bucketCnt then
    some h
  else if alloc then do
    let buckets ← moveElems f cnt h.buckets (← newBuckets cnt)
    some { h with bucketCnt := cnt, buckets }
  else
    some h

/-- `hash_clear`, with the elements `destructor` is called for. -/
protected def clear (h : HashTable E) (destructor : Bool) : HashTable E × List E :=
  ({ h with elemCnt := 0, buckets := h.buckets.map fun _ => [] },
    if destructor then h.buckets.flatten else [])

/-- `hash_init`. -/
protected def init (alloc : Bool) : Option (HashTable E) :=
  if alloc then some (HashTable.clear ⟨0, 4, List.replicate 4 []⟩ false).1 else none

/-- `hash_insert`. -/
protected def insert (h : HashTable E) (new : E) (alloc : Bool) :
    Option (HashTable E × Option E) := do
  let idx := f.bucketIdx h.bucketCnt new
  let bucket ← h.buckets[idx]?
  let old := findElem f bucket new
  let h ← if old = none then h.insertElem idx new else some h
  some (← h.rehash f alloc, old)

/-- `hash_replace`. -/
protected def replace (h : HashTable E) (new : E) (alloc : Bool) :
    Option (HashTable E × Option E) := do
  let idx := f.bucketIdx h.bucketCnt new
  let bucket ← h.buckets[idx]?
  let old := findElem f bucket new
  let h := match old with
    | some x => h.removeElem x
    | none => h
  let h ← h.insertElem idx new
  some (← h.rehash f alloc, old)

/-- `hash_find`. -/
protected def find (h : HashTable E) (e : E) : Option (Option E) := do
  let bucket ← h.buckets[f.bucketIdx h.bucketCnt e]?
  some (findElem f bucket e)

/-- `hash_delete`. -/
protected def delete (h : HashTable E) (e : E) (alloc : Bool) :
    Option (HashTable E × Option E) := do
  let bucket ← h.buckets[f.bucketIdx h.bucketCnt e]?
  match findElem f bucket e with
  | some found => some (← (h.removeElem found).rehash f alloc, some found)
  | none => some (h, none)

end Code

/-! ## The number of buckets -/

theorem isPowerOf2_iff_eq {k x : Nat} (hlo : 2 ^ k ≤ x) (hhi : x < 2 ^ (k + 1)) :
    (isPowerOf2 x = true ↔ x = 2 ^ k) ∧
      (x ≠ 2 ^ k → 2 ^ k ≤ turnOffLeast1bit x ∧ turnOffLeast1bit x < x) := by
  -- the highest bit stays as long as there is another one to turn off
  have hbit : ∀ y, 2 ^ k ≤ y → y < 2 ^ (k + 1) → y.testBit k = true := by
    intro y hlo hhi
    have hdiv : y / 2 ^ k = 1 :=
      Nat.div_eq_of_lt_le (by omega) (by rw [Nat.pow_succ] at hhi; omega)
    rw [Nat.testBit_eq_decide_div_mod_eq, hdiv]
    rfl
  have hkeep : x ≠ 2 ^ k → 2 ^ k ≤ turnOffLeast1bit x := by
    intro hne
    refine Nat.ge_two_pow_of_testBit ?_
    rw [turnOffLeast1bit, Nat.testBit_and, hbit x hlo hhi, hbit (x - 1) (by omega) (by omega)]
    rfl
  refine ⟨⟨fun htrue => ?_, fun heq => ?_⟩, fun hne => ⟨hkeep hne, ?_⟩⟩
  · by_contra hne
    have hzero : turnOffLeast1bit x = 0 := by
      simp only [isPowerOf2, Bool.and_eq_true, beq_iff_eq] at htrue
      exact htrue.2
    omega
  · have hzero : turnOffLeast1bit x = 0 := by
      rw [turnOffLeast1bit, heq, Nat.and_two_pow_sub_one_eq_mod, Nat.mod_self]
    have hne : x ≠ 0 := by omega
    simp [isPowerOf2, hzero, hne]
  · have hle : turnOffLeast1bit x ≤ x - 1 := Nat.and_le_right
    omega

/-- **The loop ends**, at the highest power of 2 that is not above the number. -/
theorem roundDown_spec {k : Nat} :
    ∀ {fuel x : Nat}, x ≤ fuel → 2 ^ k ≤ x → x < 2 ^ (k + 1) → roundDown fuel x = some (2 ^ k)
  | 0, x, hfuel, hlo, _ => by
    omega
  | fuel + 1, x, hfuel, hlo, hhi => by
    obtain ⟨hiff, hnext⟩ := isPowerOf2_iff_eq hlo hhi
    rw [roundDown]
    split
    · next htrue => rw [hiff.mp htrue]
    · next hfalse =>
      obtain ⟨hlo', hlt⟩ := hnext fun heq => hfalse (hiff.mpr heq)
      exact roundDown_spec (by omega) hlo' (by omega)

theorem newBucketCnt_spec (elemCnt : Nat) :
    ∃ k, newBucketCnt elemCnt = some (2 ^ k) ∧ 4 ≤ 2 ^ k ∧ 2 ^ k ≤ max 4 (elemCnt / 2) ∧
      max 4 (elemCnt / 2) < 2 ^ (k + 1) := by
  simp only [newBucketCnt]
  generalize hcnt : (if elemCnt / 2 < 4 then 4 else elemCnt / 2) = cnt
  have hfour : 4 ≤ cnt ∧ cnt = max 4 (elemCnt / 2) := by
    rw [← hcnt]
    split <;> omega
  have hlo := Nat.log2_self_le (n := cnt) (by omega)
  have hhi : cnt < 2 ^ (cnt.log2 + 1) := Nat.lt_log2_self
  refine ⟨cnt.log2, roundDown_spec (Nat.le_refl cnt) hlo hhi, ?_, hfour.2 ▸ hlo, hfour.2 ▸ hhi⟩
  have hlog : 2 ≤ cnt.log2 := (Nat.le_log2 (by omega)).mpr hfour.1
  calc 4 = 2 ^ 2 := rfl
    _ ≤ 2 ^ cnt.log2 := Nat.pow_le_pow_right Nat.two_pos hlog

/-! ## The set in the table -/

section Set
variable {E : Type} [DecidableEq E] {f : HashFuncs E}

/-- Every element of the set is in one bucket, and once, and nothing else is. -/
structure Filled (f : HashFuncs E) (bucketCnt : Nat) (buckets : List (List E)) (S : Finset E) :
    Prop where
  length : buckets.length = bucketCnt
  nodup : ∀ (i : Nat) (bucket : List E), buckets[i]? = some bucket → bucket.Nodup
  mem : ∀ (i : Nat) (bucket : List E), buckets[i]? = some bucket →
    ∀ e, e ∈ bucket ↔ e ∈ S ∧ f.bucketIdx bucketCnt e = i

/-- **The table implements the set**: the set has one element at most of every class of
equal elements, `elem_cnt` is its size, `bucket_cnt` is a power of 2 and at least 4, and
every element is in exactly one bucket, the one its hash selects. -/
structure Implements (f : HashFuncs E) (h : HashTable E) (S : Finset E) : Prop where
  classes : ∀ x ∈ S, ∀ y ∈ S, f.equal x y = true → x = y
  elemCnt : h.elemCnt = S.card
  pow : h.bucketCnt.isPowerOfTwo
  four_le : 4 ≤ h.bucketCnt
  filled : Filled f h.bucketCnt h.buckets S

omit [DecidableEq E] in
theorem bucketIdx_lt {bucketCnt : Nat} (hpow : bucketCnt.isPowerOfTwo) (e : E) :
    f.bucketIdx bucketCnt e < bucketCnt := by
  obtain ⟨k, rfl⟩ := hpow
  rw [HashFuncs.bucketIdx, Nat.and_two_pow_sub_one_eq_mod]
  exact Nat.mod_lt _ (Nat.two_pow_pos k)

namespace Filled
variable {bucketCnt : Nat} {buckets : List (List E)} {S : Finset E}

section
omit [DecidableEq E]

theorem bucketIdx_lt (h : Filled f bucketCnt buckets S) (hpow : bucketCnt.isPowerOfTwo) (e : E) :
    f.bucketIdx bucketCnt e < buckets.length := by
  rw [h.length]
  exact HashTable.bucketIdx_lt hpow e

/-- Looking for an element in the bucket its hash selects is looking for it in the set. -/
theorem findElem_spec (hf : f.Lawful) (h : Filled f bucketCnt buckets S)
    (hpow : bucketCnt.isPowerOfTwo) (e : E) :
    ∃ bucket, buckets[f.bucketIdx bucketCnt e]? = some bucket ∧
      (∀ x, findElem f bucket e = some x → x ∈ S ∧ f.equal x e = true) ∧
      (findElem f bucket e = none → ∀ x ∈ S, f.equal x e = false) := by
  have hlt : f.bucketIdx bucketCnt e < buckets.length := h.bucketIdx_lt hpow e
  refine ⟨_, getElem?_eq_getElem hlt, fun x hx => ?_, fun hnone x hx => ?_⟩
  · have hequal := find?_some (p := fun hi => f.equal hi e) hx
    have hmem := mem_of_find?_eq_some hx
    exact ⟨((h.mem _ _ (getElem?_eq_getElem hlt) x).mp hmem).1, hequal⟩
  · -- an equal element has the same hash, so it would be in this bucket
    by_contra hequal
    rw [Bool.not_eq_false] at hequal
    have hmem := (h.mem _ _ (getElem?_eq_getElem hlt) x).mpr
      ⟨hx, by rw [HashFuncs.bucketIdx, hf.hash_eq x e hequal, ← HashFuncs.bucketIdx]⟩
    exact absurd hequal (find?_eq_none.mp hnone x hmem)

end

/-- A new element at the front of its bucket. -/
theorem pushFront (h : Filled f bucketCnt buckets S) (hpow : bucketCnt.isPowerOfTwo) {e : E}
    (he : e ∉ S) :
    ∃ buckets', HashTable.pushFront buckets (f.bucketIdx bucketCnt e) e = some buckets' ∧
      Filled f bucketCnt buckets' (insert e S) := by
  have hlt : f.bucketIdx bucketCnt e < buckets.length := h.bucketIdx_lt hpow e
  refine ⟨_, by rw [HashTable.pushFront, assert_of hlt]; rfl, ?_, ?_, ?_⟩
  · rw [length_modify, h.length]
  all_goals
    intro i bucket hi
    rw [getElem?_modify] at hi
    obtain ⟨old, hold, rfl⟩ := Option.map_eq_some_iff.mp hi
    have hmem := h.mem i old hold
    have hnodup := h.nodup i old hold
    by_cases hidx : f.bucketIdx bucketCnt e = i
  · rw [if_pos hidx, nodup_cons]
    exact ⟨fun hin => he ((hmem e).mp hin).1, hnodup⟩
  · rw [if_neg hidx]
    exact hnodup
  · intro x
    rw [if_pos hidx, mem_cons, hmem, Finset.mem_insert]
    by_cases hx : x = e
    · simp [hx, hidx]
    · simp [hx]
  · intro x
    rw [if_neg hidx, hmem, Finset.mem_insert]
    by_cases hx : x = e
    · simp [hx, hidx, he]
    · simp [hx]

/-- An element is taken out of its bucket. -/
theorem erase (h : Filled f bucketCnt buckets S) (e : E) :
    Filled f bucketCnt (buckets.map (·.erase e)) (S.erase e) := by
  refine ⟨by rw [length_map, h.length], ?_, ?_⟩
  all_goals
    intro i bucket hi
    rw [getElem?_map] at hi
    obtain ⟨old, hold, rfl⟩ := Option.map_eq_some_iff.mp hi
    have hmem := h.mem i old hold
    have hnodup := h.nodup i old hold
  · exact hnodup.erase e
  · intro x
    rw [hnodup.mem_erase_iff, hmem, Finset.mem_erase, and_assoc]

omit [DecidableEq E] in
theorem empty (f : HashFuncs E) {buckets : List (List E)} (hlength : buckets.length = bucketCnt)
    (hempty : ∀ bucket ∈ buckets, bucket = []) : Filled f bucketCnt buckets ∅ := by
  refine ⟨hlength, ?_, ?_⟩
  all_goals
    intro i bucket hi
    rw [hempty bucket (mem_of_getElem? hi)]
  · exact nodup_nil
  · simp

/-- All elements, bucket by bucket, are those of the set. -/
theorem flatten (h : Filled f bucketCnt buckets S) (hpow : bucketCnt.isPowerOfTwo) :
    buckets.flatten.Nodup ∧ buckets.flatten.toFinset = S := by
  refine ⟨nodup_flatten.mpr ⟨fun bucket hb => ?_, ?_⟩, ?_⟩
  · obtain ⟨i, hi⟩ := mem_iff_getElem?.mp hb
    exact h.nodup i bucket hi
  · refine pairwise_iff_getElem.mpr fun i j hi hj hij e hei hej => ?_
    have hidx := ((h.mem i _ (getElem?_eq_getElem hi) e).mp hei).2
    have hidx' := ((h.mem j _ (getElem?_eq_getElem hj) e).mp hej).2
    omega
  · ext e
    rw [mem_toFinset, mem_flatten]
    constructor
    · rintro ⟨bucket, hb, he⟩
      obtain ⟨i, hi⟩ := mem_iff_getElem?.mp hb
      exact ((h.mem i bucket hi e).mp he).1
    · intro he
      have hlt : f.bucketIdx bucketCnt e < buckets.length := h.bucketIdx_lt hpow e
      exact ⟨_, getElem_mem hlt, (h.mem _ _ (getElem?_eq_getElem hlt) e).mpr ⟨he, rfl⟩⟩

end Filled

omit [DecidableEq E] in
/-- The two loops that move the elements are one loop over all of them. -/
theorem moveElems_eq (bucketCnt : Nat) (old new : List (List E)) :
    moveElems f bucketCnt old new
      = old.flatten.foldlM (fun new e => pushFront new (f.bucketIdx bucketCnt e) e) new := by
  unfold moveElems
  induction old generalizing new with
  | nil => rfl
  | cons bucket old ih =>
    rw [foldlM_cons, flatten_cons, foldlM_append]
    exact congrArg _ (funext ih)

/-- **The elements are moved**, one after the other. -/
theorem move_spec {bucketCnt : Nat} (hpow : bucketCnt.isPowerOfTwo) :
    ∀ (es : List E) (new : List (List E)) (S : Finset E), Filled f bucketCnt new S → es.Nodup →
      (∀ e ∈ es, e ∉ S) →
      ∃ new', es.foldlM (fun new e => pushFront new (f.bucketIdx bucketCnt e) e) new = some new' ∧
        Filled f bucketCnt new' (es.toFinset ∪ S)
  | [], new, S, h, _, _ => ⟨new, rfl, by simpa using h⟩
  | e :: es, new, S, h, hnodup, hnew => by
    rw [nodup_cons] at hnodup
    obtain ⟨new₁, hcode₁, h₁⟩ := h.pushFront hpow (hnew e (by simp))
    obtain ⟨new₂, hcode₂, h₂⟩ := move_spec hpow es new₁ _ h₁ hnodup.2 (by
      intro x hx
      rw [Finset.mem_insert, not_or]
      exact ⟨fun heq => hnodup.1 (heq ▸ hx), hnew x (by simp [hx])⟩)
    refine ⟨new₂, ?_, ?_⟩
    · rw [foldlM_cons, hcode₁]
      exact hcode₂
    · rw [toFinset_cons, Finset.insert_union, ← Finset.union_insert]
      exact h₂

namespace Implements
variable {h : HashTable E} {S : Finset E} (places : HashElemPlaces E)

include places in
omit [DecidableEq E] in
theorem card_lt (S : Finset E) : S.card < 536870912 := by
  rw [← Finset.length_toList]
  exact places.length_lt S.nodup_toList

include places in
/-- **`rehash` changes nothing for the set**, whether or not it finds memory. -/
theorem rehash (hI : Implements f h S) (alloc : Bool) :
    ∃ h', h.rehash f alloc = some h' ∧ Implements f h' S := by
  obtain ⟨k, hcnt, hfour, hmax, -⟩ := newBucketCnt_spec h.elemCnt
  have hsmall : h.elemCnt < 536870912 := hI.elemCnt ▸ card_lt places S
  rw [HashTable.rehash, hcnt]
  simp only [some_bind]
  split
  · exact ⟨h, rfl, hI⟩
  · split
    · -- the size of the new array does not wrap
      have hroom : 2 ^ k ≤ 16 * 2 ^ k % unsignedSize / 16 := by
        rw [unsignedSize]
        omega
      obtain ⟨hnodup, hset⟩ := hI.filled.flatten hI.pow
      have hempty : Filled f (2 ^ k) (List.replicate (2 ^ k) []) (∅ : Finset E) :=
        .empty f (length_replicate) fun bucket hb => (mem_replicate.mp hb).2
      obtain ⟨new, hmove, hfilled⟩ := move_spec ⟨k, rfl⟩ h.buckets.flatten _ ∅ hempty hnodup
        fun _ _ => Finset.notMem_empty _
      rw [hset, Finset.union_empty] at hfilled
      refine ⟨{ h with bucketCnt := 2 ^ k, buckets := new }, ?_, hI.classes, hI.elemCnt, ⟨k, rfl⟩,
        hfour, hfilled⟩
      rw [newBuckets, assert_of hroom]
      simp only [some_bind, moveElems_eq, hmove]
    · exact ⟨h, rfl, hI⟩

include places in
theorem insertElem (hI : Implements f h S) {e : E} (he : e ∉ S)
    (hnew : ∀ x ∈ S, f.equal x e = false) :
    ∃ h', h.insertElem (f.bucketIdx h.bucketCnt e) e = some h' ∧
      Implements f h' (insert e S) := by
  obtain ⟨buckets, hpush, hfilled⟩ := hI.filled.pushFront hI.pow he
  have hcard := card_lt places S
  refine ⟨{ h with elemCnt := increment h.elemCnt, buckets }, ?_, ?_, ?_, hI.pow, hI.four_le,
    hfilled⟩
  · rw [HashTable.insertElem, hpush]
    rfl
  · intro x hx y hy hxy
    rcases Finset.mem_insert.mp hx with rfl | hxS
    · rcases Finset.mem_insert.mp hy with rfl | hyS
      · rfl
      · have hfalse := hnew y hyS
        rw [HashFuncs.equal_symm hxy] at hfalse
        cases hfalse
    · rcases Finset.mem_insert.mp hy with rfl | hyS
      · rw [hnew x hxS] at hxy
        cases hxy
      · exact hI.classes x hxS y hyS hxy
  · rw [Finset.card_insert_of_notMem he, ← hI.elemCnt]
    refine increment_eq ?_
    rw [hI.elemCnt, unsignedSize]
    omega

theorem removeElem (hI : Implements f h S) {e : E} (he : e ∈ S) :
    Implements f (h.removeElem e) (S.erase e) := by
  have hpos : 0 < S.card := Finset.card_pos.mpr ⟨e, he⟩
  have hcnt : decrement h.elemCnt = (S.erase e).card := by
    rw [Finset.card_erase_of_mem he, hI.elemCnt]
    exact decrement_eq hpos
  refine ⟨fun x hx y hy => ?_, hcnt, hI.pow, hI.four_le, hI.filled.erase e⟩
  exact hI.classes x (Finset.mem_of_mem_erase hx) y (Finset.mem_of_mem_erase hy)

section
omit [DecidableEq E]

theorem clear (hI : Implements f h S) (destructor : Bool) :
    Implements f (h.clear destructor).1 ∅ where
  classes := by simp
  elemCnt := rfl
  pow := hI.pow
  four_le := hI.four_le
  filled := by
    refine .empty f ?_ fun bucket hb => ?_
    · exact (length_map _).trans hI.filled.length
    · obtain ⟨-, -, rfl⟩ := mem_map.mp hb
      rfl

theorem init (f : HashFuncs E) :
    ∃ h, HashTable.init true = some h ∧ Implements f h (∅ : Finset E) := by
  refine ⟨_, rfl, by simp, rfl, ⟨2, rfl⟩, Nat.le_refl 4, .empty f rfl ?_⟩
  intro bucket hb
  obtain ⟨-, -, rfl⟩ := mem_map.mp hb
  rfl

end

end Implements

end Set

end HashTable

/-! ## Calls -/

/-- A call; `alloc` says whether the `malloc` in it succeeds. -/
inductive HashCall (E : Type) where
  | init (alloc : Bool)
  | insert (new : E) (alloc : Bool)
  | replace (new : E) (alloc : Bool)
  | find (e : E)
  | delete (e : E) (alloc : Bool)
  | clear (destructor : Bool)

/-- What a call returns; for `hash_clear`, the elements `destructor` is called for. -/
inductive HashResult (E : Type) where
  | bool (b : Bool)
  | elem (e : Option E)
  | destroyed (es : List E)
  deriving DecidableEq

namespace HashCall
variable {E : Type} [DecidableEq E] {f : HashFuncs E}

/-- The code of a call.  There is no table before `hash_init` has succeeded. -/
def exec (f : HashFuncs E) :
    Option (HashTable E) → HashCall E → Option (Option (HashTable E) × HashResult E)
  | _, .init alloc => some (HashTable.init alloc, .bool (HashTable.init (E := E) alloc).isSome)
  | some h, .insert new alloc => (h.insert f new alloc).map fun (h, old) => (some h, .elem old)
  | some h, .replace new alloc => (h.replace f new alloc).map fun (h, old) => (some h, .elem old)
  | some h, .find e => (h.find f e).map fun found => (some h, .elem found)
  | some h, .delete e alloc => (h.delete f e alloc).map fun (h, found) => (some h, .elem found)
  | some h, .clear destructor =>
    some (some (h.clear destructor).1, .destroyed (h.clear destructor).2)
  | none, _ => none

/-- What a call asks for: a table, and that the element to insert is not linked in it. -/
def Allowed : Option (HashTable E) → HashCall E → Prop
  | _, .init _ => True
  | some h, .insert new _ | some h, .replace new _ => new ∉ h.buckets.flatten
  | some _, .find _ | some _, .delete _ _ | some _, .clear _ => True
  | none, _ => False

end HashCall

namespace HashTable
variable {E : Type} [DecidableEq E] {f : HashFuncs E}

/-- What is found for `e` in a set: an equal element, or nothing if there is none. -/
def Found (f : HashFuncs E) (S : Finset E) (e : E) : Option E → Prop
  | some x => x ∈ S ∧ f.equal x e = true
  | none => ∀ x ∈ S, f.equal x e = false

/-- The set without what was found in it. -/
def without (S : Finset E) : Option E → Finset E
  | some x => S.erase x
  | none => S

/-- **What a call means for the set.** -/
def Meets (f : HashFuncs E) :
    Option (Finset E) → HashCall E → HashResult E → Option (Finset E) → Prop
  | _, .init alloc, .bool b, S' => b = alloc ∧ S' = if alloc then some ∅ else none
  | some S, .insert new _, .elem old, S' =>
    Found f S new old ∧ S' = some (if old = none then insert new S else S)
  | some S, .replace new _, .elem old, S' =>
    Found f S new old ∧ S' = some (insert new (without S old))
  | some S, .find e, .elem found, S' => Found f S e found ∧ S' = some S
  | some S, .delete e _, .elem found, S' => Found f S e found ∧ S' = some (without S found)
  | some S, .clear destructor, .destroyed es, S' =>
    es.Nodup ∧ es.toFinset = (if destructor then S else ∅) ∧ S' = some ∅
  | _, _, _, _ => False

/-- The table, if there is one, implements the set. -/
def Implemented (f : HashFuncs E) : Option (HashTable E) → Option (Finset E) → Prop
  | some h, some S => h.Implements f S
  | none, none => True
  | _, _ => False

namespace Implements
variable {h : HashTable E} {S : Finset E} (places : HashElemPlaces E) (hf : f.Lawful)
  (hI : Implements f h S)
include hI

theorem mem_iff (e : E) : e ∈ S ↔ e ∈ h.buckets.flatten := by
  rw [← (hI.filled.flatten hI.pow).2, mem_toFinset]

include hf

omit [DecidableEq E] in
/-- **A lookup in the table is a lookup in the set.** -/
theorem lookup (e : E) :
    ∃ bucket, h.buckets[f.bucketIdx h.bucketCnt e]? = some bucket ∧
      Found f S e (findElem f bucket e) := by
  obtain ⟨bucket, hbucket, hsome, hnone⟩ := hI.filled.findElem_spec hf hI.pow e
  refine ⟨bucket, hbucket, ?_⟩
  cases hfound : findElem f bucket e with
  | some x => exact hsome x hfound
  | none => exact hnone hfound

include places in
theorem insert {new : E} (hnew : new ∉ S) (alloc : Bool) :
    ∃ h' old, h.insert f new alloc = some (h', old) ∧ Found f S new old ∧
      Implements f h' (if old = none then insert new S else S) := by
  obtain ⟨bucket, hbucket, hfound⟩ := hI.lookup hf new
  rw [HashTable.insert, hbucket]
  simp only [some_bind]
  cases hold : findElem f bucket new with
  | some x =>
    rw [hold] at hfound
    obtain ⟨h', hrehash, hI'⟩ := hI.rehash places alloc
    exact ⟨h', some x, by simp [hrehash], hfound, by simpa using hI'⟩
  | none =>
    rw [hold] at hfound
    obtain ⟨h₁, hinsert, hI₁⟩ := hI.insertElem places hnew hfound
    obtain ⟨h', hrehash, hI'⟩ := hI₁.rehash places alloc
    exact ⟨h', none, by simp [hinsert, hrehash], hfound, by simpa using hI'⟩

include places in
theorem replace {new : E} (hnew : new ∉ S) (alloc : Bool) :
    ∃ h' old, h.replace f new alloc = some (h', old) ∧ Found f S new old ∧
      Implements f h' (Insert.insert new (without S old)) := by
  obtain ⟨bucket, hbucket, hfound⟩ := hI.lookup hf new
  rw [HashTable.replace, hbucket]
  simp only [some_bind]
  cases hold : findElem f bucket new with
  | some x =>
    rw [hold] at hfound
    obtain ⟨hx, hxnew⟩ := hfound
    have hI₁ := hI.removeElem hx
    -- the only element equal to the new one is gone
    have hnone : ∀ y ∈ S.erase x, f.equal y new = false := by
      intro y hy
      obtain ⟨hyx, hyS⟩ := Finset.mem_erase.mp hy
      by_contra hequal
      rw [Bool.not_eq_false] at hequal
      have hxy := hf.order.incomp_trans y new x (HashFuncs.equal_iff.mp hequal)
        (HashFuncs.equal_iff.mp hxnew).symm
      exact hyx (hI.classes y hyS x hx (HashFuncs.equal_iff.mpr hxy))
    obtain ⟨h₂, hinsert, hI₂⟩ := hI₁.insertElem places
      (fun hmem => hnew (Finset.mem_of_mem_erase hmem)) hnone
    obtain ⟨h', hrehash, hI'⟩ := hI₂.rehash places alloc
    refine ⟨h', some x, ?_, ⟨hx, hxnew⟩, hI'⟩
    have hsame : (h.removeElem x).bucketCnt = h.bucketCnt := rfl
    rw [hsame] at hinsert
    simp [hinsert, hrehash]
  | none =>
    rw [hold] at hfound
    obtain ⟨h₁, hinsert, hI₁⟩ := hI.insertElem places hnew hfound
    obtain ⟨h', hrehash, hI'⟩ := hI₁.rehash places alloc
    exact ⟨h', none, by simp [hinsert, hrehash], hfound, hI'⟩

omit [DecidableEq E] in
theorem find (e : E) :
    ∃ found, h.find f e = some found ∧ Found f S e found := by
  obtain ⟨bucket, hbucket, hfound⟩ := hI.lookup hf e
  exact ⟨_, by rw [HashTable.find, hbucket]; rfl, hfound⟩

include places in
theorem delete (e : E) (alloc : Bool) :
    ∃ h' found, h.delete f e alloc = some (h', found) ∧ Found f S e found ∧
      Implements f h' (without S found) := by
  obtain ⟨bucket, hbucket, hfound⟩ := hI.lookup hf e
  rw [HashTable.delete, hbucket]
  simp only [some_bind]
  cases hold : findElem f bucket e with
  | some x =>
    rw [hold] at hfound
    obtain ⟨h', hrehash, hI'⟩ := (hI.removeElem hfound.1).rehash places alloc
    exact ⟨h', some x, by simp [hrehash], hfound, hI'⟩
  | none =>
    rw [hold] at hfound
    exact ⟨h, none, rfl, hfound, hI⟩

end Implements

/-- **One call** does to the table what it does to the set. -/
theorem call_spec (hf : f.Lawful) (places : HashElemPlaces E) {h : Option (HashTable E)}
    {S : Option (Finset E)} (hI : Implemented f h S) {call : HashCall E}
    (hcall : call.Allowed h) :
    ∃ h' r S', call.exec f h = some (h', r) ∧ Meets f S call r S' ∧ Implemented f h' S' := by
  by_cases hinit : ∃ alloc, call = .init alloc
  · obtain ⟨alloc, rfl⟩ := hinit
    cases alloc with
    | true =>
      obtain ⟨h₁, hcode, hI₁⟩ := Implements.init f
      refine ⟨some h₁, .bool true, some ∅, ?_, ⟨rfl, rfl⟩, hI₁⟩
      simp [HashCall.exec, hcode]
    | false => exact ⟨none, .bool false, none, rfl, ⟨rfl, rfl⟩, trivial⟩
  · -- every other call needs a table, and with it there is a set
    obtain ⟨h₀, S₀, rfl, rfl, hI₀⟩ : ∃ h₀ S₀, h = some h₀ ∧ S = some S₀ ∧ h₀.Implements f S₀ := by
      cases h with
      | none =>
        cases call with
        | init alloc => exact absurd ⟨alloc, rfl⟩ hinit
        | _ => exact absurd hcall id
      | some h₀ =>
        cases S with
        | none => exact absurd hI id
        | some S₀ => exact ⟨h₀, S₀, rfl, rfl, hI⟩
    cases call with
    | init alloc => exact absurd ⟨alloc, rfl⟩ hinit
    | insert new alloc =>
      have hnew : new ∉ S₀ := fun hmem => hcall ((hI₀.mem_iff new).mp hmem)
      obtain ⟨h₁, old, hcode, hfound, hI₁⟩ := hI₀.insert places hf hnew alloc
      exact ⟨some h₁, .elem old, _, by simp [HashCall.exec, hcode], ⟨hfound, rfl⟩, hI₁⟩
    | replace new alloc =>
      have hnew : new ∉ S₀ := fun hmem => hcall ((hI₀.mem_iff new).mp hmem)
      obtain ⟨h₁, old, hcode, hfound, hI₁⟩ := hI₀.replace places hf hnew alloc
      exact ⟨some h₁, .elem old, _, by simp [HashCall.exec, hcode], ⟨hfound, rfl⟩, hI₁⟩
    | find e =>
      obtain ⟨found, hcode, hfound⟩ := hI₀.find hf e
      exact ⟨some h₀, .elem found, _, by simp [HashCall.exec, hcode], ⟨hfound, rfl⟩, hI₀⟩
    | delete e alloc =>
      obtain ⟨h₁, found, hcode, hfound, hI₁⟩ := hI₀.delete places hf e alloc
      exact ⟨some h₁, .elem found, _, by simp [HashCall.exec, hcode], ⟨hfound, rfl⟩, hI₁⟩
    | clear destructor =>
      obtain ⟨hnodup, hset⟩ := hI₀.filled.flatten hI₀.pow
      refine ⟨_, _, some ∅, rfl, ⟨?_, ?_, rfl⟩, hI₀.clear destructor⟩
      · cases destructor
        · exact nodup_nil
        · exact hnodup
      · cases destructor
        · rfl
        · exact hset

/-- A series of calls, with what each returns. -/
def execAll (f : HashFuncs E) : Option (HashTable E) → List (HashCall E) →
    Option (Option (HashTable E) × List (HashResult E))
  | h, [] => some (h, [])
  | h, call :: calls => do
    let (h, r) ← call.exec f h
    let (h, rs) ← execAll f h calls
    some (h, r :: rs)

/-- Every call finds what it asks for. -/
def AllAllowed (f : HashFuncs E) : Option (HashTable E) → List (HashCall E) → Prop
  | _, [] => True
  | h, call :: calls => call.Allowed h ∧
    match call.exec f h with
    | some (h, _) => AllAllowed f h calls
    | none => True

instance (call : HashCall E) (h : Option (HashTable E)) : Decidable (call.Allowed h) := by
  cases h <;> cases call <;> unfold HashCall.Allowed <;> infer_instance

instance decidableAllAllowed :
    ∀ (h : Option (HashTable E)) (calls : List (HashCall E)), Decidable (AllAllowed f h calls)
  | _, [] => .isTrue trivial
  | h, call :: calls =>
    have : Decidable (match call.exec f h with
        | some (h, _) => AllAllowed f h calls
        | none => True) :=
      match call.exec f h with
      | some (h, _) => decidableAllAllowed h calls
      | none => .isTrue trivial
    inferInstanceAs (Decidable (_ ∧ _))

/-- A series of calls on a set, with what each returns. -/
inductive SetCalls (f : HashFuncs E) :
    Option (Finset E) → List (HashCall E) → List (HashResult E) → Option (Finset E) → Prop
  | nil {S : Option (Finset E)} : SetCalls f S [] [] S
  | cons {S S' S'' : Option (Finset E)} {call : HashCall E} {calls : List (HashCall E)}
      {r : HashResult E} {rs : List (HashResult E)} (hcall : Meets f S call r S')
      (hcalls : SetCalls f S' calls rs S'') : SetCalls f S (call :: calls) (r :: rs) S''

theorem calls_spec (hf : f.Lawful) (places : HashElemPlaces E) (calls : List (HashCall E))
    {h : Option (HashTable E)} {S : Option (Finset E)} (hI : Implemented f h S)
    (hcalls : AllAllowed f h calls) :
    ∃ h' rs S', execAll f h calls = some (h', rs) ∧ SetCalls f S calls rs S' ∧
      Implemented f h' S' := by
  induction calls generalizing h S with
  | nil => exact ⟨h, [], S, rfl, .nil, hI⟩
  | cons call calls ih =>
    obtain ⟨hallowed, hrest⟩ := hcalls
    obtain ⟨h₁, r, S₁, hcode, hmeets, hI₁⟩ := call_spec hf places hI hallowed
    simp only [hcode] at hrest
    obtain ⟨h₂, rs, S₂, hcodes, hset, hI₂⟩ := ih hI₁ hrest
    refine ⟨h₂, r :: rs, S₂, ?_, .cons hmeets hset, hI₂⟩
    simp [execAll, hcode, hcodes]

/-- **The table implements a finite set.**  For all functions that are lawful, every series
of calls, in which inserted elements are not already linked in the table, and with every
outcome of the allocations: the code runs, its results are those of the set, and the table
left implements the set left. -/
theorem implements_set (hf : f.Lawful) (places : HashElemPlaces E) (calls : List (HashCall E))
    (hcalls : AllAllowed f none calls) :
    ∃ h rs S, execAll f none calls = some (h, rs) ∧ SetCalls f none calls rs S ∧
      Implemented f h S :=
  calls_spec hf places calls trivial hcalls

/-- Numbers of which two and two are equal, sixteen classes of them.  The second of a class
is not inserted, but replaces the first; the table grows to 8 buckets, and has no memory to
shrink again. -/
theorem implements_set_pairs :
    let f : HashFuncs (Fin 32) := ⟨fun e => BitVec.ofNat 32 (e / 2), fun a b => a.val / 2 < b / 2⟩
    let calls : List (HashCall (Fin 32)) :=
      [.init true, .insert 0 true, .insert 1 true, .replace 1 true] ++
        (List.finRange 15).map (fun i => .insert ⟨2 * i + 2, by omega⟩ true) ++
        [.find 0, .delete 3 false]
    ∃ h S, Implemented f (some h) (some S) ∧ h.bucketCnt = 8 ∧ S.card = 15 ∧
      (execAll f none calls).map Prod.fst = some (some h) := by
  intro f calls
  have hlawful : f.Lawful := by
    refine ⟨{ irrefl := ?_, trans := ?_, incomp_trans := ?_ }, fun a b hab => ?_⟩
    · simp [f]
    · simp only [f, decide_eq_true_eq]
      omega
    · simp only [f, decide_eq_true_eq]
      omega
    · rw [HashFuncs.equal_iff] at hab
      simp only [f, decide_eq_true_eq] at hab
      have hdiv : a.val / 2 = b.val / 2 := by omega
      simp only [f, hdiv]
  let places : HashElemPlaces (Fin 32) :=
    { addr e := 8 * e + 8
      addr_pos e := by omega
      fits e := by rw [unsignedSize]; omega
      apart a b hab := by omega }
  obtain ⟨h, rs, S, hcode, -, hI⟩ := implements_set hlawful places calls (by decide +kernel)
  have hcnt : (execAll f none calls).map (fun p => p.1.map fun h => (h.elemCnt, h.bucketCnt))
      = some (some (15, 8)) := by decide +kernel
  clear_value calls
  rw [hcode] at hcnt ⊢
  cases h with
  | none => simp at hcnt
  | some h =>
    cases S with
    | none => exact absurd hI id
    | some S =>
      simp only [Option.map_some, Option.some.injEq, Prod.mk.injEq] at hcnt
      exact ⟨h, S, hI, hcnt.2, hI.elemCnt ▸ hcnt.1, rfl⟩

/-! ## The load -/

/-- `BEST_ELEMS_PER_BUCKET`. -/
def bestElemsPerBucket : Nat := 2

/-- `MAX_ELEMS_PER_BUCKET`. -/
def maxElemsPerBucket : Nat := 4

/-- The call has gone through `rehash`, and `malloc` did not fail in it. -/
def Rehashed : HashCall E → HashResult E → Prop
  | .insert _ alloc, _ | .replace _ alloc, _ => alloc = true
  | .delete _ alloc, .elem found => alloc = true ∧ found.isSome = true
  | _, _ => False

omit [DecidableEq E] in
/-- **Behind `rehash` the buckets are not too full**, if there was memory for them. -/
theorem rehash_load {h h' : HashTable E} (hcode : h.rehash f true = some h') :
    h'.elemCnt < maxElemsPerBucket * h'.bucketCnt := by
  obtain ⟨k, hcnt, -, -, hlt⟩ := newBucketCnt_spec h.elemCnt
  rw [Nat.pow_succ] at hlt
  rw [HashTable.rehash, hcnt, some_bind] at hcode
  have hkept : h'.elemCnt = h.elemCnt ∧ h'.bucketCnt = 2 ^ k := by
    split at hcode
    · next hsame =>
      cases hcode
      exact ⟨rfl, hsame.symm⟩
    · obtain ⟨_, -, hcode⟩ := of_bind hcode
      obtain ⟨_, -, hcode⟩ := of_bind hcode
      cases hcode
      exact ⟨rfl, rfl⟩
  rw [hkept.1, hkept.2, maxElemsPerBucket]
  omega

/-- The last thing such a call does is `rehash`. -/
theorem exists_rehash {h h' : HashTable E} {call : HashCall E} {r : HashResult E}
    (hcode : call.exec f (some h) = some (some h', r)) (hr : Rehashed call r) :
    ∃ t : HashTable E, t.rehash f true = some h' := by
  cases call with
  | insert new alloc =>
    cases hr
    obtain ⟨⟨t, old⟩, hcall, heq⟩ := Option.map_eq_some_iff.mp hcode
    cases heq
    obtain ⟨bucket, -, hcall⟩ := of_bind hcall
    dsimp only at hcall
    split at hcall
    all_goals
      obtain ⟨t, -, hcall⟩ := of_bind hcall
      obtain ⟨t', hrehash, hcall⟩ := of_bind hcall
      cases hcall
      exact ⟨t, hrehash⟩
  | replace new alloc =>
    cases hr
    obtain ⟨⟨t, old⟩, hcall, heq⟩ := Option.map_eq_some_iff.mp hcode
    cases heq
    obtain ⟨bucket, -, hcall⟩ := of_bind hcall
    obtain ⟨t, -, hcall⟩ := of_bind hcall
    obtain ⟨t', hrehash, hcall⟩ := of_bind hcall
    cases hcall
    exact ⟨t, hrehash⟩
  | delete e alloc =>
    obtain ⟨⟨t, found⟩, hcall, heq⟩ := Option.map_eq_some_iff.mp hcode
    cases heq
    obtain ⟨rfl, hfound⟩ := hr
    obtain ⟨bucket, -, hcall⟩ := of_bind hcall
    split at hcall
    · obtain ⟨t', hrehash, hcall⟩ := of_bind hcall
      cases hcall
      exact ⟨_, hrehash⟩
    · cases hcall
      cases hfound
  | init | find | clear => exact absurd hr id

/-- **`rehash` chooses the largest power of 2 that is not above the ideal.**  Its loop ends for
every number of elements.  So every call that has gone through `rehash` and found memory leaves
fewer than `MAX_ELEMS_PER_BUCKET` elements per bucket, on average, whatever the table was before;
and the two counts are those of the elements and buckets there are, after every series of
calls. -/
theorem load_below_max (f : HashFuncs E) :
    (∀ elemCnt, ∃ cnt, newBucketCnt elemCnt = some cnt ∧
      IsGreatest {p : Nat | p.isPowerOfTwo ∧ p ≤ max 4 (elemCnt / bestElemsPerBucket)} cnt) ∧
    (∀ (h h' : HashTable E) (call : HashCall E) (r : HashResult E),
      call.exec f (some h) = some (some h', r) → Rehashed call r →
      h'.elemCnt < maxElemsPerBucket * h'.bucketCnt) ∧
    (f.Lawful → HashElemPlaces E → ∀ calls, AllAllowed f none calls →
      ∃ h rs, execAll f none calls = some (h, rs) ∧ ∀ t, h = some t →
        t.elemCnt = t.buckets.flatten.length ∧ t.bucketCnt = t.buckets.length) := by
  refine ⟨fun elemCnt => ?_, fun h h' call r hcode hr => ?_, fun hf places calls hcalls => ?_⟩
  · obtain ⟨k, hcnt, -, hle, hlt⟩ := newBucketCnt_spec elemCnt
    refine ⟨2 ^ k, hcnt, ⟨⟨k, rfl⟩, hle⟩, ?_⟩
    rintro p ⟨⟨j, rfl⟩, hj⟩
    have hjk : j < k + 1 := (Nat.pow_lt_pow_iff_right (by decide)).mp (Nat.lt_of_le_of_lt hj hlt)
    exact Nat.pow_le_pow_right Nat.two_pos (Nat.le_of_lt_succ hjk)
  · obtain ⟨t, hrehash⟩ := exists_rehash hcode hr
    exact rehash_load hrehash
  · obtain ⟨h, rs, S, hcode, -, hI⟩ := calls_spec hf places calls (h := none) (S := none) trivial hcalls
    refine ⟨h, rs, hcode, ?_⟩
    rintro t rfl
    cases S with
    | none => exact absurd hI id
    | some S =>
      obtain ⟨hnodup, hset⟩ := hI.filled.flatten hI.pow
      rw [hI.elemCnt, ← hset, toFinset_card_of_nodup hnodup]
      exact ⟨rfl, hI.filled.length.symm⟩

end HashTable
end Pintos
