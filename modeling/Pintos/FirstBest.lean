import Mathlib.Order.Lattice

/-!
# The first of the best

A scan of a list that keeps one thing, and replaces it whenever it meets a candidate of
higher rank.  It ends with what it began with, if no candidate is better, and otherwise with
the first of the best candidates (`KeepsBest.foldl`).
-/

namespace FirstBest
open List

variable {α σ ρ : Type} [LinearOrder ρ]
variable {f : σ → α → σ} {candidate : α → Prop} {keep : α → σ} {rank : σ → ρ}

/-- A turn `f` of the scan keeps a candidate, as `keep` stores it, if that ranks higher than
what is kept. -/
def KeepsBest (f : σ → α → σ) (candidate : α → Prop) (keep : α → σ) (rank : σ → ρ) : Prop :=
  ∀ s x, (candidate x ∧ rank s < rank (keep x)) ∧ f s x = keep x ∨
    (candidate x → rank (keep x) ≤ rank s) ∧ f s x = s

/-- **The scan ends with the first of the best**, where the list is in the order `R`. -/
theorem KeepsBest.foldl (h : KeepsBest f candidate keep rank) {R : α → α → Prop} {l : List α}
    (hl : l.Pairwise R) (s : σ) :
    (l.foldl f s = s ∧ ∀ x ∈ l, candidate x → rank (keep x) ≤ rank s) ∨
    ∃ x ∈ l, l.foldl f s = keep x ∧ candidate x ∧ rank s < rank (keep x) ∧
      ∀ y ∈ l, candidate y → rank (keep y) ≤ rank (keep x) ∧
        (rank (keep y) = rank (keep x) → y = x ∨ R x y) := by
  induction l generalizing s with
  | nil => exact .inl ⟨rfl, forall_mem_nil _⟩
  | cons z l ih =>
    obtain ⟨hz, hl⟩ := pairwise_cons.mp hl
    rw [foldl_cons]
    rcases h s z with ⟨⟨hcand, hlt⟩, hstep⟩ | ⟨hle, hstep⟩
    · rw [hstep]
      rcases ih hl (keep z) with ⟨hres, hall⟩ | ⟨x, hx, hres, hc, hbetter, hall⟩
      · refine .inr ⟨z, mem_cons_self, hres, hcand, hlt, forall_mem_cons.mpr ⟨?_, ?_⟩⟩
        · exact fun _ => ⟨le_rfl, fun _ => .inl rfl⟩
        · exact fun y hy hcy => ⟨hall y hy hcy, fun _ => .inr (hz y hy)⟩
      · refine .inr ⟨x, mem_cons_of_mem z hx, hres, hc, hlt.trans hbetter, ?_⟩
        exact forall_mem_cons.mpr ⟨fun _ => ⟨hbetter.le, fun he => absurd he hbetter.ne⟩, hall⟩
    · rw [hstep]
      rcases ih hl s with ⟨hres, hall⟩ | ⟨x, hx, hres, hc, hbetter, hall⟩
      · exact .inl ⟨hres, forall_mem_cons.mpr ⟨hle, hall⟩⟩
      · refine .inr ⟨x, mem_cons_of_mem z hx, hres, hc, hbetter, ?_⟩
        refine forall_mem_cons.mpr ⟨fun hcz => ?_, hall⟩
        have hworse := (hle hcz).trans_lt hbetter
        exact ⟨hworse.le, fun he => absurd he hworse.ne⟩

end FirstBest
