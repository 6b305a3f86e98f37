import Mathlib.Data.List.Nodup
import Mathlib.Logic.Function.Basic

/-!
# Slot tables

A table of `c` slots, each of which is free or has a key and a value.  No key is in two
slots (`Apart`).  The table represents a finite map (`Represents`), and filling or clearing
a slot is an update of the map.  The pairs in the order of the slots (`pairs`) are what a
scan of the table sees, one after the other (`pairsFrom`).
-/

namespace SlotTable
open List

variable {K V : Type} {slot slot' : Nat → Option (K × V)} {c i k m : Nat} {key : K} {v : V}

/-- The pairs in the slots from the `k`th on, in their order. -/
def pairsFrom (slot : Nat → Option (K × V)) (c k : Nat) : List (K × V) :=
  (List.range' k (c - k)).filterMap slot

/-- The pairs in the slots. -/
def pairs (slot : Nat → Option (K × V)) (c : Nat) : List (K × V) :=
  pairsFrom slot c 0

/-- No key is in two slots. -/
def Apart (slot : Nat → Option (K × V)) (c : Nat) : Prop :=
  ∀ i, i < c → ∀ j, j < c → ∀ p q, slot i = some p → slot j = some q → p.1 = q.1 → i = j

theorem mem_pairs {p : K × V} : p ∈ pairs slot c ↔ ∃ i, i < c ∧ slot i = some p := by
  simp [pairs, pairsFrom, mem_filterMap, mem_range'_1]

/-- The keys of the table are different. -/
theorem Apart.nodup_keys (h : Apart slot c) : ((pairs slot c).map Prod.fst).Nodup := by
  have hsorted : (List.range' 0 (c - 0)).Pairwise fun i j => i < c ∧ j < c ∧ i ≠ j := by
    refine List.Pairwise.imp_of_mem (fun {i j} hi hj hlt => ?_) pairwise_lt_range'
    rw [mem_range'_1] at hi hj
    omega
  rw [pairs, pairsFrom, map_filterMap]
  refine hsorted.filterMap _ ?_
  rintro i j ⟨hi, hj, hne⟩ a ha b hb rfl
  obtain ⟨p, hp, rfl⟩ := Option.map_eq_some_iff.mp ha
  obtain ⟨q, hq, heq⟩ := Option.map_eq_some_iff.mp hb
  exact hne (h i hi j hj p q hp hq heq.symm)

/-- There is room exactly where a slot is free. -/
theorem length_pairs_lt : (pairs slot c).length < c ↔ ∃ i, i < c ∧ slot i = none := by
  have hcount : (pairs slot c).length = (List.range' 0 c).countP fun i => (slot i).isSome :=
    length_filterMap_eq_countP
  have hle := countP_le_length (p := fun i => (slot i).isSome) (l := List.range' 0 c)
  have hall := countP_eq_length (p := fun i => (slot i).isSome) (l := List.range' 0 c)
  rw [length_range'] at hle hall
  have hfull : (pairs slot c).length = c ↔ ∀ i, i < c → (slot i).isSome = true := by
    rw [hcount, hall]
    simp [mem_range'_1]
  rw [Nat.lt_iff_le_and_ne, ne_eq, hfull, hcount, and_iff_right hle, not_forall]
  simp only [Classical.not_imp, Option.not_isSome_iff_eq_none]

/-! ## The map -/

/-- **The table represents the map.** -/
def Represents (slot : Nat → Option (K × V)) (c : Nat) (f : K → Option V) : Prop :=
  ∀ key v, f key = some v ↔ ∃ i, i < c ∧ slot i = some (key, v)

namespace Represents
variable {f g : K → Option V}

/-- A table represents one map only. -/
theorem unique (hf : Represents slot c f) (hg : Represents slot c g) : f = g := by
  funext key
  exact Option.ext fun v => (hf key v).trans (hg key v).symm

theorem congr (hf : Represents slot c f) (hsame : ∀ i, i < c → slot' i = slot i) :
    Represents slot' c f := by
  intro key v
  refine (hf key v).trans (exists_congr fun i => and_congr_right fun hi => ?_)
  rw [hsame i hi]

variable [DecidableEq K]

/-- **A slot that was free is filled.** -/
theorem fill (hf : Represents slot c f) (hi : i < c) (hfree : slot i = none)
    (hfill : slot' i = some (key, v)) (hother : ∀ j, j < c → j ≠ i → slot' j = slot j)
    (hnew : f key = none) : Represents slot' c (Function.update f key (some v)) := by
  intro key' v'
  by_cases hkey : key' = key
  · subst hkey
    rw [Function.update_self, Option.some.injEq]
    constructor
    · rintro rfl
      exact ⟨i, hi, hfill⟩
    · rintro ⟨j, hj, hslot⟩
      by_cases hji : j = i
      · rw [hji, hfill] at hslot
        exact congrArg Prod.snd (Option.some.inj hslot)
      · rw [hother j hj hji] at hslot
        exact nomatch hnew.symm.trans ((hf key' v').mpr ⟨j, hj, hslot⟩)
  · rw [Function.update_of_ne hkey, hf key' v']
    refine exists_congr fun j => and_congr_right fun hj => ?_
    by_cases hji : j = i
    · rw [hji, hfill, hfree]
      exact ⟨(nomatch ·), fun h => absurd (congrArg Prod.fst (Option.some.inj h)).symm hkey⟩
    · rw [hother j hj hji]

/-- **A slot is cleared.** -/
theorem clear (hf : Represents slot c f) (hapart : Apart slot c) (hi : i < c)
    (hslot : slot i = some (key, v)) (hclear : slot' i = none)
    (hother : ∀ j, j < c → j ≠ i → slot' j = slot j) :
    Represents slot' c (Function.update f key none) := by
  intro key' v'
  by_cases hkey : key' = key
  · subst hkey
    rw [Function.update_self]
    refine ⟨(nomatch ·), ?_⟩
    rintro ⟨j, hj, hslot'⟩
    by_cases hji : j = i
    · rw [hji, hclear] at hslot'
      exact nomatch hslot'
    · rw [hother j hj hji] at hslot'
      exact absurd (hapart j hj i hi _ _ hslot' hslot rfl) hji
  · rw [Function.update_of_ne hkey, hf key' v']
    refine exists_congr fun j => and_congr_right fun hj => ?_
    by_cases hji : j = i
    · rw [hji, hclear, hslot]
      exact ⟨fun h => absurd (congrArg Prod.fst (Option.some.inj h)).symm hkey, (nomatch ·)⟩
    · rw [hother j hj hji]

end Represents

/-! ## Scans -/

/-- The slots from the `k`th on are free up to one that is not: its pair comes next. -/
theorem pairsFrom_of_some {p : K × V} (hkm : k ≤ m) (hm : m < c)
    (hfree : ∀ j, k ≤ j → j < m → slot j = none) (hp : slot m = some p) :
    pairsFrom slot c k = p :: pairsFrom slot c (m + 1) := by
  have hsplit : List.range' k (c - k) =
      List.range' k (m - k) ++ m :: List.range' (m + 1) (c - (m + 1)) := by
    have hsum : c - k = (m - k) + ((c - (m + 1)) + 1) := by omega
    rw [hsum, ← range'_append_1, Nat.add_sub_cancel' hkm, range'_succ]
  have hnone : (List.range' k (m - k)).filterMap slot = [] := by
    refine filterMap_eq_nil_iff.mpr fun j hj => ?_
    rw [mem_range'_1] at hj
    exact hfree j hj.1 (by omega)
  rw [pairsFrom, hsplit, filterMap_append, hnone, nil_append, filterMap_cons_some hp]
  rfl

/-- The slots from the `k`th on are all free. -/
theorem pairsFrom_of_free (hfree : ∀ j, k ≤ j → j < c → slot j = none) : pairsFrom slot c k = [] := by
  refine filterMap_eq_nil_iff.mpr fun j hj => ?_
  rw [mem_range'_1] at hj
  exact hfree j hj.1 (by omega)

end SlotTable
