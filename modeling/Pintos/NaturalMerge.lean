import Mathlib.Data.List.Chain
import Mathlib.Data.List.Sort

/-!
# Natural merge sort

A **run** is a stretch of a list in which no element is greater than the next one.  A pass
cuts a list into its maximal runs and merges them in pairs (`Pass`).  It moves elements, but
never past an equivalent one (`Reordered`); a pass that leaves one run has sorted the list
(`Pass.sorted`), and otherwise the next pass has fewer runs to merge (`Pass.breaks_lt`).

The order is given by a function `le`, and the merge is the one of the standard library.
-/

namespace NaturalMerge
open List
variable {α : Type*} (le : α → α → Bool)

/-- How often an element is greater than the next one. -/
def breaks : List α → Nat
  | [] => 0
  | [_] => 0
  | a :: b :: l => (if le a b then 0 else 1) + breaks (b :: l)

/-- A stretch in which no element is greater than the next one. -/
structure Run (l : List α) : Prop where
  ne_nil : l ≠ []
  chain : l.IsChain fun a b => le a b = true

/-- The run in front of `rest` cannot be made longer. -/
def Ends (l rest : List α) : Prop :=
  ∀ x ∈ l.getLast?, ∀ y ∈ rest.head?, le x y = false

/-- **A pass** merges the maximal runs of a list in pairs and counts the runs it puts out. -/
inductive Pass : List α → List α → Nat → Prop
  | nil : Pass [] [] 0
  | run {xs : List α} (hrun : Run le xs) : Pass xs xs 1
  | pair {xs ys l l' : List α} {n : Nat} (hx : Run le xs) (hy : Run le ys) (hxy : Ends le xs ys)
      (hyl : Ends le ys l) (hpass : Pass l l' n) :
      Pass (xs ++ (ys ++ l)) (xs.merge ys le ++ l') (n + 1)

/-- The elements equivalent to `e`. -/
def equivalent (e x : α) : Bool :=
  le e x && le x e

/-- **Moved around, but not past equivalent elements.** -/
structure Reordered (l l' : List α) : Prop where
  perm : l'.Perm l
  stable : ∀ e, l'.filter (equivalent le e) = l.filter (equivalent le e)

variable {le} {xs ys zs l l' : List α} {a b : α} {n : Nat}

theorem Reordered.refl (l : List α) : Reordered le l l :=
  ⟨.refl l, fun _ => rfl⟩

theorem Reordered.trans (h : Reordered le xs ys) (h' : Reordered le ys zs) : Reordered le xs zs :=
  ⟨h'.perm.trans h.perm, fun e => (h'.stable e).trans (h.stable e)⟩

theorem Reordered.append (h : Reordered le xs ys) (h' : Reordered le l l') :
    Reordered le (xs ++ l) (ys ++ l') :=
  ⟨h.perm.append h'.perm, fun e => by rw [filter_append, filter_append, h.stable e,
    h'.stable e]⟩

/-! ## Counting breaks -/

theorem breaks_eq_zero (h : l.IsChain fun a b => le a b = true) : breaks le l = 0 := by
  induction l with
  | nil => rfl
  | cons a l ih =>
    cases l with
    | nil => rfl
    | cons b l =>
      obtain ⟨hab, hl⟩ := isChain_cons_cons.mp h
      rw [breaks, if_pos hab, ih hl]

/-- Two lists have their breaks and one more at most between them. -/
theorem breaks_append_le (hy : ys ≠ []) :
    breaks le (xs ++ ys) ≤ breaks le xs + breaks le ys + 1 := by
  induction xs with
  | nil =>
    rw [nil_append, breaks]
    omega
  | cons a xs ih =>
    cases xs with
    | nil =>
      obtain ⟨y, ys, rfl⟩ := exists_cons_of_ne_nil hy
      rw [cons_append, nil_append, breaks, breaks]
      split <;> omega
    | cons b xs =>
      simp only [cons_append, breaks] at ih ⊢
      omega

/-- Where a run ends, there is a break. -/
theorem breaks_append (hx : xs ≠ []) (hy : ys ≠ []) (hends : Ends le xs ys) :
    breaks le (xs ++ ys) = breaks le xs + breaks le ys + 1 := by
  induction xs with
  | nil => exact absurd rfl hx
  | cons a xs ih =>
    cases xs with
    | nil =>
      obtain ⟨y, ys, rfl⟩ := exists_cons_of_ne_nil hy
      have hbreak : le a y = false := hends a rfl y rfl
      rw [cons_append, nil_append, breaks, breaks, hbreak]
      simp only [Bool.false_eq_true, if_false]
      omega
    | cons b xs =>
      have hrest := ih (cons_ne_nil b xs) fun x hxl => hends x (by
        rwa [getLast?_cons_cons])
      simp only [cons_append, breaks] at hrest ⊢
      omega

theorem breaks_le_length (l : List α) : breaks le l ≤ l.length := by
  induction l with
  | nil => exact Nat.le_refl 0
  | cons a l ih =>
    cases l with
    | nil => exact Nat.zero_le 1
    | cons b l =>
      rw [breaks]
      simp only [length_cons] at ih ⊢
      split <;> omega

theorem Pass.of_nil (h : Pass le l l' n) (hl : l = []) : l' = [] ∧ n = 0 := by
  cases h with
  | nil => exact ⟨rfl, rfl⟩
  | run hrun => exact absurd hl hrun.ne_nil
  | pair hx => exact absurd (append_eq_nil_iff.mp hl).1 hx.ne_nil

/-- **The number of runs a pass puts out** is half of those there are, rounded up. -/
theorem Pass.count (h : Pass le l l' n) (hl : l ≠ []) : n = breaks le l / 2 + 1 := by
  induction h with
  | nil => exact absurd rfl hl
  | run hrun => rw [breaks_eq_zero hrun.chain]
  | @pair xs ys l l' n hx hy hxy hyl hpass ih =>
    have hyl' : ys ++ l ≠ [] := append_ne_nil_of_left_ne_nil hy.ne_nil l
    have hends : Ends le xs (ys ++ l) := by
      intro x hxl y hyl
      obtain ⟨z, zs, rfl⟩ := exists_cons_of_ne_nil hy.ne_nil
      exact hxy x hxl y hyl
    rw [breaks_append hx.ne_nil hyl' hends, breaks_eq_zero hx.chain]
    cases l with
    | nil => rw [append_nil, breaks_eq_zero hy.chain, (hpass.of_nil rfl).2]
    | cons z l =>
      rw [breaks_append hy.ne_nil (cons_ne_nil z l) hyl, breaks_eq_zero hy.chain,
        ih (cons_ne_nil z l)]
      omega

section Order
variable (htotal : ∀ a b, (le a b || le b a) = true)
  (htrans : ∀ a b c, le a b = true → le b c = true → le a c = true)
include htotal htrans

omit htotal in
theorem Run.pairwise (h : Run le l) : l.Pairwise fun a b => le a b = true := by
  have : Trans (fun a b => le a b = true) (fun a b => le a b = true) (fun a b => le a b = true) :=
    ⟨fun {a b c} => htrans a b c⟩
  exact isChain_iff_pairwise.mp h.chain

theorem merge_chain (hx : Run le xs) (hy : Run le ys) :
    (xs.merge ys le).IsChain fun a b => le a b = true :=
  List.Pairwise.isChain (pairwise_merge htrans htotal xs ys (hx.pairwise htrans)
    (hy.pairwise htrans))

/-- A pass leaves no breaks but between the runs it puts out. -/
theorem Pass.breaks_le (h : Pass le l l' n) : breaks le l' ≤ n - 1 := by
  induction h with
  | nil => exact Nat.le_refl 0
  | run hrun => rw [breaks_eq_zero hrun.chain]
  | @pair xs ys l l' n hx hy hxy hyl hpass ih =>
    have hmerged := breaks_eq_zero (merge_chain htotal htrans hx hy)
    by_cases hl' : l' = []
    · rw [hl', append_nil, hmerged]
      omega
    · have hle : breaks le (xs.merge ys le ++ l') ≤ _ := breaks_append_le hl'
      have hn : 1 ≤ n := by
        cases hpass with
        | nil => exact absurd rfl hl'
        | run => exact Nat.le_refl 1
        | pair => omega
      omega

/-- **The next pass has fewer runs to merge**, if there was more than one. -/
theorem Pass.breaks_lt (h : Pass le l l' n) (hn : 1 < n) : breaks le l' < breaks le l := by
  have hl : l ≠ [] := fun hl => by
    have := (h.of_nil hl).2
    omega
  have hcount := h.count hl
  have hle := h.breaks_le htotal htrans
  omega

/-- **One run is left: the list is sorted.** -/
theorem Pass.sorted (h : Pass le l l' n) (hn : n ≤ 1) : l'.IsChain fun a b => le a b = true := by
  cases h with
  | nil => exact .nil
  | run hrun => exact hrun.chain
  | pair hx hy hxy hyl hpass =>
    cases hpass with
    | nil =>
      rw [append_nil]
      exact merge_chain htotal htrans hx hy
    | run => omega
    | pair => omega

omit htotal in
/-- **The merge keeps the order of equivalent elements**: an element of the second list only
goes past greater ones. -/
theorem filter_merge (e : α) (hx : xs.Pairwise fun a b => le a b = true) :
    (xs.merge ys le).filter (equivalent le e) =
      xs.filter (equivalent le e) ++ ys.filter (equivalent le e) := by
  induction xs generalizing ys with
  | nil => rw [nil_merge, filter_nil, nil_append]
  | cons x xs ihx =>
    obtain ⟨hxs, hpairwise⟩ := pairwise_cons.mp hx
    induction ys with
    | nil => rw [merge_right, filter_nil, append_nil]
    | cons y ys ihy =>
      rw [cons_merge_cons]
      by_cases hxy : le x y = true
      · rw [if_pos hxy, filter_cons, filter_cons, ihx hpairwise]
        split <;> rfl
      · rw [if_neg hxy, filter_cons, filter_cons (x := y), ihy]
        by_cases hy : equivalent le e y = true
        · have hnone : (x :: xs).filter (equivalent le e) = [] := by
            refine filter_eq_nil_iff.mpr fun z hz hez => hxy ?_
            rw [equivalent, Bool.and_eq_true] at hy hez
            have hzy := htrans z e y hez.2 hy.1
            rcases mem_cons.mp hz with rfl | hz
            · exact hzy
            · exact htrans x z y (hxs z hz) hzy
          rw [if_pos hy, if_pos hy, hnone]
          rfl
        · rw [if_neg hy, if_neg hy]

omit htotal in
/-- **A pass only reorders.** -/
theorem Pass.reordered (h : Pass le l l' n) : Reordered le l l' := by
  induction h with
  | nil => exact .refl []
  | run => exact .refl _
  | @pair xs ys l l' n hx hy hxy hyl hpass ih =>
    have hmerge : Reordered le (xs ++ ys) (xs.merge ys le) := by
      refine ⟨merge_perm_append le, fun e => ?_⟩
      rw [filter_merge htrans e (hx.pairwise htrans), filter_append]
    have := hmerge.append ih
    rwa [append_assoc] at this

end Order
end NaturalMerge
