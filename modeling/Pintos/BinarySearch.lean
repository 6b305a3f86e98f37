import Pintos.HeapSort

/-!
# Searching an array

`binary_search` of the standard library keeps the part of the array in which a match can
still be as two pointers: `last` moves to the middle element if the key is smaller, and
`first` behind it if the key is greater.  Beside what it returns, the search is given here
with the pointers whose elements it compares with the key.

A comparison with one element decides about all elements on one side of it (`against_mono`),
so no match is outside of the two pointers.  **A match is found if there is one**, and only
elements of the array are compared (`binarySearch_finds`).
-/

namespace Pintos.BinarySearch
open HeapSort (TotalPreorder)

variable {α Aux : Type}

/-- What is searched: an array of `cnt` elements of `size` bytes, and what `compare` finds at a
pointer. -/
structure Elements (α : Type) where
  array : Nat
  cnt : Nat
  size : Nat
  value : Nat → α

/-- The loop of `binary_search`, for fewer than `rounds` rounds: the pointer it returns, 0 for
`NULL`, and those whose elements it has compared with the key. -/
def searchLoop (p : Elements α) (key : α) (compare : α → α → Aux → Int) (aux : Aux) :
    Nat → Nat → Nat → Option (Nat × List Nat)
  | 0, _, _ => none
  | rounds + 1, first, last =>
    if first < last then
      let range := (last - first) / p.size
      let middle := (first + range / 2 * p.size) % unsignedSize
      let cmp := compare key (p.value middle) aux
      if cmp < 0 then do
        let (r, compared) ← searchLoop p key compare aux rounds first middle
        some (r, middle :: compared)
      else if cmp > 0 then do
        let (r, compared) ← searchLoop p key compare aux rounds ((middle + p.size) % unsignedSize) last
        some (r, middle :: compared)
      else some (middle, [middle])
    else some (0, [])

/-- `binary_search`. -/
def binarySearch (p : Elements α) (key : α) (compare : α → α → Aux → Int) (aux : Aux) :
    Option (Nat × List Nat) :=
  searchLoop p key compare aux (p.cnt + 1) p.array
    ((p.array + p.size * p.cnt % unsignedSize) % unsignedSize)

namespace Elements

/-- The pointer to an element. -/
def pointer (p : Elements α) (k : Nat) : Nat :=
  p.array + k * p.size

/-- **An array in memory**, as C has them: not at the null pointer, with elements of one byte
or more, and with an address behind its last element. -/
structure Ok (p : Elements α) : Prop where
  array_pos : 0 < p.array
  size_pos : 0 < p.size
  fits : p.pointer p.cnt < unsignedSize

/-- No element is greater than a later one. -/
def Sorted (p : Elements α) (cmp : α → α → Int) : Prop :=
  ∀ k l, k < l → l < p.cnt → cmp (p.value (p.pointer k)) (p.value (p.pointer l)) ≤ 0

/-- How the key compares with an element. -/
def against (p : Elements α) (key : α) (cmp : α → α → Int) (k : Nat) : Int :=
  cmp key (p.value (p.pointer k))

/-- **What is asked of a search**: it compares elements of the array only, returns `NULL` exactly
if none of them is equal to the key, and else a pointer to one that is. -/
structure Found (p : Elements α) (against : Nat → Int) (r : Nat) (compared : List Nat) : Prop where
  elements : ∀ a ∈ compared, ∃ k, k < p.cnt ∧ a = p.pointer k
  null_iff : r = 0 ↔ ∀ k, k < p.cnt → against k ≠ 0
  equal : r ≠ 0 → ∃ k, k < p.cnt ∧ r = p.pointer k ∧ against k = 0

variable {p : Elements α} {key : α} {cmp : α → α → Int} {i j k l : Nat}

/-- **A comparison decides half of the array**: where the key is smaller than an element, it is
smaller than the later ones, and where it is greater, it is greater than the earlier ones. -/
theorem Sorted.against_mono (hsorted : p.Sorted cmp) (hcmp : TotalPreorder cmp) (hkl : k ≤ l)
    (hl : l < p.cnt) : (p.against key cmp k < 0 → p.against key cmp l < 0) ∧
      (0 < p.against key cmp l → 0 < p.against key cmp k) := by
  rcases Nat.eq_or_lt_of_le hkl with rfl | hlt
  · exact ⟨id, id⟩
  have hle := hsorted k l hlt hl
  refine ⟨fun hless => ?_, fun hmore => ?_⟩
  · by_contra hge
    have hle' := hcmp.trans _ _ _ hle (Int.not_lt.mp (mt (hcmp.swap key _).mpr hge))
    exact Int.not_lt.mpr hle' ((hcmp.swap key _).mp hless)
  · by_contra hge
    exact Int.not_lt.mpr (hcmp.trans _ _ _ (Int.not_lt.mp hge) hle) hmore

theorem Ok.pointer_lt_iff (hp : p.Ok) : p.pointer i < p.pointer j ↔ i < j := by
  rw [pointer, pointer, Nat.add_lt_add_iff_left, Nat.mul_lt_mul_right hp.size_pos]

theorem Ok.pointer_mod (hp : p.Ok) (hk : k ≤ p.cnt) : p.pointer k % unsignedSize = p.pointer k :=
  Nat.mod_eq_of_lt (Nat.lt_of_le_of_lt
    (Nat.add_le_add_left (Nat.mul_le_mul_right p.size hk) p.array) hp.fits)

/-- The element that a round looks at is halfway between the pointers. -/
theorem Ok.middle_eq (hp : p.Ok) (hij : i < j) (hj : j ≤ p.cnt) :
    (p.pointer i + (p.pointer j - p.pointer i) / p.size / 2 * p.size) % unsignedSize
      = p.pointer (i + (j - i) / 2) := by
  have hrange : (p.pointer j - p.pointer i) / p.size = j - i := by
    rw [pointer, pointer, Nat.add_sub_add_left, ← Nat.sub_mul, Nat.mul_div_cancel _ hp.size_pos]
  have hsum : p.pointer i + (j - i) / 2 * p.size = p.pointer (i + (j - i) / 2) := by
    rw [pointer, pointer, Nat.add_mul, Nat.add_assoc]
  rw [hrange, hsum, hp.pointer_mod (by omega)]

theorem Found.cons {against : Nat → Int} {r : Nat} {compared : List Nat}
    (h : p.Found against r compared) (hk : k < p.cnt) :
    p.Found against r (p.pointer k :: compared) := by
  refine ⟨fun a ha => ?_, h.null_iff, h.equal⟩
  rcases List.mem_cons.mp ha with rfl | ha
  · exact ⟨k, hk, rfl⟩
  · exact h.elements a ha

theorem Ok.found (hp : p.Ok) {against : Nat → Int} (hk : k < p.cnt) (hequal : against k = 0) :
    p.Found against (p.pointer k) [p.pointer k] := by
  have hpos : p.pointer k ≠ 0 :=
    Nat.ne_of_gt (Nat.lt_of_lt_of_le hp.array_pos (Nat.le_add_right _ _))
  refine ⟨fun a ha => ⟨k, hk, List.mem_singleton.mp ha⟩, ?_, fun _ => ⟨k, hk, rfl, hequal⟩⟩
  exact ⟨fun hzero => absurd hzero hpos, fun hnone => absurd hequal (hnone k hk)⟩

/-- **The loop finds what there is between the pointers**, if the elements before them are
smaller than the key and those behind them greater. -/
theorem Ok.searchLoop_finds (hp : p.Ok) {compare : α → α → Aux → Int} {aux : Aux}
    (hcmp : TotalPreorder (compare · · aux)) (hsorted : p.Sorted (compare · · aux)) {rounds : Nat}
    (hij : i ≤ j) (hj : j ≤ p.cnt) (hsmaller : ∀ k, k < i → 0 < p.against key (compare · · aux) k)
    (hgreater : ∀ k, j ≤ k → k < p.cnt → p.against key (compare · · aux) k < 0)
    (hrounds : j - i < rounds) :
    ∃ r compared, searchLoop p key compare aux rounds (p.pointer i) (p.pointer j)
      = some (r, compared) ∧ p.Found (p.against key (compare · · aux)) r compared := by
  induction rounds generalizing i j with
  | zero => exact absurd hrounds (Nat.not_lt_zero _)
  | succ rounds ih =>
    rw [searchLoop]
    rcases Nat.eq_or_lt_of_le hij with rfl | hlt
    · refine ⟨0, [], if_neg (Nat.lt_irrefl _), List.forall_mem_nil _,
        ⟨fun _ k hk => ?_, fun _ => rfl⟩, absurd rfl⟩
      rcases Nat.lt_or_ge k i with hki | hik
      · exact Int.ne_of_gt (hsmaller k hki)
      · exact Int.ne_of_lt (hgreater k hik hk)
    · obtain ⟨k, hmiddle, hik, hkj⟩ : ∃ k, i + (j - i) / 2 = k ∧ i ≤ k ∧ k < j :=
        ⟨_, rfl, by omega, by omega⟩
      have hk : k < p.cnt := Nat.lt_of_lt_of_le hkj hj
      have hnext : (p.pointer k + p.size) % unsignedSize = p.pointer (k + 1) := by
        rw [pointer, Nat.add_assoc, ← Nat.succ_mul]
        exact hp.pointer_mod hk
      simp only [if_pos (hp.pointer_lt_iff.mpr hlt), hp.middle_eq hlt hj, hmiddle, hnext]
      have hvalue : compare key (p.value (p.pointer k)) aux = p.against key (compare · · aux) k := rfl
      rw [hvalue]
      by_cases hless : p.against key (compare · · aux) k < 0
      · obtain ⟨r, compared, hcode, hfound⟩ := ih hik (Nat.le_of_lt hk) hsmaller
          (fun l hkl hl => (hsorted.against_mono hcmp hkl hl).1 hless) (by omega)
        exact ⟨r, p.pointer k :: compared, by rw [if_pos hless, hcode, some_bind], hfound.cons hk⟩
      rw [if_neg hless]
      by_cases hmore : 0 < p.against key (compare · · aux) k
      · obtain ⟨r, compared, hcode, hfound⟩ := ih hkj hj
          (fun l hl => (hsorted.against_mono hcmp (Nat.le_of_lt_succ hl) hk).2 hmore) hgreater
          (by omega)
        exact ⟨r, p.pointer k :: compared, by rw [if_pos hmore, hcode, some_bind], hfound.cons hk⟩
      · exact ⟨_, _, if_neg hmore, hp.found hk (by omega)⟩

end Elements

/-- **Binary search is complete.**  In every array that is sorted under a total preorder, the
search for any key ends, compares the key with elements of the array only, and returns a pointer
to an equal element or, if there is none, `NULL`. -/
theorem binarySearch_finds {p : Elements α} (hp : p.Ok) (key : α) {compare : α → α → Aux → Int}
    {aux : Aux} (hcmp : TotalPreorder (compare · · aux)) (hsorted : p.Sorted (compare · · aux)) :
    ∃ r compared, binarySearch p key compare aux = some (r, compared) ∧
      p.Found (p.against key (compare · · aux)) r compared := by
  have hfirst : p.pointer 0 = p.array := by
    rw [Elements.pointer, Nat.zero_mul, Nat.add_zero]
  have hlast : (p.array + p.size * p.cnt % unsignedSize) % unsignedSize = p.pointer p.cnt := by
    rw [Nat.add_mod_mod, Nat.mul_comm]
    exact Nat.mod_eq_of_lt hp.fits
  rw [binarySearch, hlast, ← hfirst]
  exact hp.searchLoop_finds hcmp hsorted (Nat.zero_le _) (Nat.le_refl _)
    (fun k hk => absurd hk (Nat.not_lt_zero k)) (fun k hk hlt => absurd hlt (Nat.not_lt.mpr hk))
    (Nat.lt_succ_self _)

/-- Of four numbers in three bytes each, at address 16, the key 5 is found after one comparison. -/
theorem binarySearch_finds_five :
    let p : Elements Int := ⟨16, 4, 3, fun a => [1, 5, 5, 9].getD ((a - 16) / 3) 0⟩
    let compare := fun (x y : Int) (_ : Unit) => x - y
    binarySearch p 5 compare () = some (22, [22]) ∧
      p.Found (p.against 5 (compare · · ())) 22 [22] := by
  intro p compare
  have hcode : binarySearch p 5 compare () = some (22, [22]) := by decide +kernel
  have hcmp : TotalPreorder (compare · · ()) :=
    ⟨fun x y => by simp only [compare]; omega, fun x y z => by simp only [compare]; omega⟩
  have hsorted : p.Sorted (compare · · ()) := by
    have hall : ∀ l, l < 4 → ∀ k, k < l → compare (p.value (p.pointer k)) (p.value (p.pointer l)) ()
        ≤ 0 := by decide
    exact fun k l hkl hl => hall l hl k hkl
  obtain ⟨r, compared, hsome, hfound⟩ :=
    binarySearch_finds ⟨by decide, by decide, by decide⟩ 5 hcmp hsorted
  cases hcode.symm.trans hsome
  exact ⟨hcode, hfound⟩

end Pintos.BinarySearch
