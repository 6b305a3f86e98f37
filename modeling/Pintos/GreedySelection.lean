import Mathlib.Data.List.Basic

/-!
# Greedy selection

Going through a list and taking each wanted element that is in conflict with none taken
before: a wanted element is left out only because of one that comes before it
(`conflict_of_notMem_select`).
-/

namespace GreedySelection
open List

variable {α : Type} (wanted : α → Prop) (conflict : α → α → Prop)
variable [DecidablePred wanted] [DecidableRel conflict]

/-- The elements taken, when those in `taken` have been taken before. -/
def select (taken : List α) : List α → List α
  | [] => taken
  | x :: l =>
    if wanted x ∧ ∀ y ∈ taken, ¬conflict x y then select (taken ++ [x]) l else select taken l

variable {wanted conflict} {taken l : List α} {x : α}

theorem subset_select (hx : x ∈ taken) : x ∈ select wanted conflict taken l := by
  induction l generalizing taken with
  | nil => exact hx
  | cons y l ih =>
    rw [select]
    split
    · exact ih (mem_append_left _ hx)
    · exact ih hx

/-- **A wanted element that is not taken** is in conflict with one taken before it. -/
theorem conflict_of_notMem_select (hwant : wanted x) (hx : x ∈ l)
    (hnot : x ∉ select wanted conflict taken l) :
    ∃ l₁ l₂, l = l₁ ++ x :: l₂ ∧
      ∃ y ∈ select wanted conflict taken l, conflict x y ∧ (y ∈ taken ∨ y ∈ l₁) := by
  induction l generalizing taken with
  | nil => exact absurd hx not_mem_nil
  | cons z l ih =>
    rw [select] at hnot ⊢
    by_cases htake : wanted z ∧ ∀ y ∈ taken, ¬conflict z y
    · rw [if_pos htake] at hnot ⊢
      rcases mem_cons.mp hx with rfl | hx
      · exact absurd (subset_select (mem_append_right _ mem_cons_self)) hnot
      · obtain ⟨l₁, l₂, rfl, y, hy, hconf, hbefore⟩ := ih hx hnot
        refine ⟨z :: l₁, l₂, rfl, y, hy, hconf, ?_⟩
        rcases hbefore with hbefore | hbefore
        · rcases mem_append.mp hbefore with hbefore | hbefore
          · exact .inl hbefore
          · exact .inr (mem_singleton.mp hbefore ▸ mem_cons_self)
        · exact .inr (mem_cons_of_mem z hbefore)
    · rw [if_neg htake] at hnot ⊢
      rcases mem_cons.mp hx with rfl | hx
      · -- it was passed over itself
        obtain ⟨y, hy, hconf⟩ : ∃ y ∈ taken, conflict x y := by
          simpa using fun h : ∀ y ∈ taken, ¬conflict x y => htake ⟨hwant, h⟩
        exact ⟨[], l, rfl, y, subset_select hy, hconf, .inl hy⟩
      · obtain ⟨l₁, l₂, rfl, y, hy, hconf, hbefore⟩ := ih hx hnot
        exact ⟨z :: l₁, l₂, rfl, y, hy, hconf, hbefore.imp_right (mem_cons_of_mem z)⟩

end GreedySelection
