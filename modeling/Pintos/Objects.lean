import Mathlib.Data.List.Basic
import Mathlib.Data.List.Pairwise

/-!
# Allocated objects

A list of objects, each with a key that no other has: the address at which it is
allocated, say.  An object is found, changed and released by its key.  **The list splits
at the object**, and changing or releasing it leaves the two parts alone
(`exists_split`); what is counted over the list changes by this one object.
-/

namespace Objects
open List
variable {α : Type} (key : α → Nat)

/-- The object with the given key. -/
def get (l : List α) (a : Nat) : Option α :=
  l.find? fun x => key x = a

/-- Changes the object with the given key. -/
def modify (l : List α) (a : Nat) (f : α → α) : List α :=
  l.map fun x => if key x = a then f x else x

/-- Takes the object with the given key off the list. -/
def release (l : List α) (a : Nat) : List α :=
  l.filter fun x => key x ≠ a

/-- No two objects have the same key. -/
def Distinct (l : List α) : Prop :=
  l.Pairwise fun x y => key x ≠ key y

variable {key} {l : List α} {a b : Nat} {x y : α} {f : α → α}

theorem key_of_get (h : get key l a = some x) : key x = a := by
  simpa using find?_some h

theorem mem_of_get (h : get key l a = some x) : x ∈ l :=
  mem_of_find?_eq_some h

theorem get_isSome (hx : x ∈ l) : ∃ y, get key l (key x) = some y := by
  refine Option.isSome_iff_exists.mp (find?_isSome.mpr ⟨x, hx, ?_⟩)
  exact decide_eq_true rfl

section
variable (hl : Distinct key l) (hx : x ∈ l)
include hl hx

/-- Two objects with one key are one object. -/
theorem Distinct.eq_of_key (hy : y ∈ l) (h : key x = key y) :
    x = y := by
  by_contra hne
  have : Std.Symm fun x y => key x ≠ key y := ⟨fun _ _ h => Ne.symm h⟩
  exact hl.forall hx hy hne h

theorem Distinct.get_of_mem : get key l (key x) = some x := by
  obtain ⟨y, hy⟩ : ∃ y, get key l (key x) = some y := get_isSome hx
  rw [hy, hl.eq_of_key hx (mem_of_get hy) (key_of_get hy).symm]

theorem Distinct.eq_singleton (hkey : ∀ y ∈ l, key y = key x) :
    l = [x] := by
  cases l with
  | nil => cases hx
  | cons y l =>
    have hnone : l = [] := eq_nil_iff_forall_not_mem.mpr fun z hz =>
      (pairwise_cons.mp hl).1 z hz ((hkey y (.head l)).trans (hkey z (.tail y hz)).symm)
    subst hnone
    rw [mem_singleton.mp hx]

end

theorem mem_release : x ∈ release key l a ↔ x ∈ l ∧ key x ≠ a := by
  rw [release, mem_filter, decide_eq_true_iff]

theorem Distinct.release (hl : Distinct key l) (a : Nat) : Distinct key (release key l a) :=
  List.Pairwise.filter _ hl

/-- What holds of every object still does, if the change keeps it. -/
theorem forall_modify {P : α → Prop} (hf : ∀ x, P (f x) ↔ P x) (h : ∀ x ∈ l, P x) :
    ∀ x ∈ modify key l a f, P x := by
  intro y hy
  obtain ⟨x, hx, rfl⟩ := mem_map.mp hy
  split
  · exact (hf x).mpr (h x hx)
  · exact h x hx

/-- A function of the objects that the change keeps. -/
theorem map_modify {β : Type} {g : α → β} (hf : ∀ x, g (f x) = g x) :
    (modify key l a f).map g = l.map g := by
  rw [modify, map_map]
  refine map_congr_left fun x _ => ?_
  rw [Function.comp_apply]
  split
  · exact hf x
  · rfl

theorem distinct_iff_map : Distinct key l ↔ (l.map key).Pairwise (· ≠ ·) :=
  pairwise_map.symm

theorem Distinct.modify {key' : α → Nat} (hl : Distinct key' l) (hf : ∀ x, key' (f x) = key' x) :
    Distinct key' (modify key l a f) := by
  rw [distinct_iff_map, map_modify hf]
  exact distinct_iff_map.mp hl

section
variable (hl : Distinct key l) (hx : get key l a = some x)
include hl hx

/-- **The list splits at the object.** -/
theorem Distinct.exists_split :
    ∃ l₁ l₂, l = l₁ ++ x :: l₂ ∧ Objects.release key l a = l₁ ++ l₂ ∧
      ∀ f, Objects.modify key l a f = l₁ ++ f x :: l₂ := by
  obtain ⟨l₁, l₂, rfl⟩ := append_of_mem (mem_of_get hx)
  have hkey := key_of_get hx
  obtain ⟨-, htail, hcross⟩ := pairwise_append.mp hl
  have h₁ : ∀ y ∈ l₁, key y ≠ a := fun y hy => hkey ▸ hcross y hy x mem_cons_self
  have h₂ : ∀ y ∈ l₂, key y ≠ a := fun y hy => hkey ▸ Ne.symm (rel_of_pairwise_cons htail hy)
  have hkeep : ∀ l : List α, (∀ y ∈ l, key y ≠ a) → l.filter (fun y => key y ≠ a) = l := by
    intro l h
    exact filter_eq_self.mpr fun y hy => decide_eq_true (h y hy)
  have hsame : ∀ (f : α → α) (l : List α), (∀ y ∈ l, key y ≠ a) →
      l.map (fun y => if key y = a then f y else y) = l := by
    intro f l h
    exact (map_congr_left fun y hy => if_neg (h y hy)).trans (map_id' l)
  refine ⟨l₁, l₂, rfl, ?_, fun f => ?_⟩
  · rw [Objects.release, filter_append, filter_cons_of_neg (by simpa using hkey),
      hkeep l₁ h₁, hkeep l₂ h₂]
  · rw [Objects.modify, map_append, map_cons, if_pos hkey, hsame f l₁ h₁, hsame f l₂ h₂]

/-- What is counted, without the object. -/
theorem Distinct.countP_release (p : α → Bool) :
    l.countP p = (Objects.release key l a).countP p + if p x then 1 else 0 := by
  obtain ⟨l₁, l₂, hsplit, hrelease, -⟩ := hl.exists_split hx
  rw [hrelease, hsplit, countP_append, countP_append, countP_cons]
  omega

/-- What is counted, with the object changed. -/
theorem Distinct.countP_modify (p : α → Bool) (f : α → α) :
    (Objects.modify key l a f).countP p =
      (Objects.release key l a).countP p + if p (f x) then 1 else 0 := by
  obtain ⟨l₁, l₂, -, hrelease, hmodify⟩ := hl.exists_split hx
  rw [hrelease, hmodify, countP_append, countP_append, countP_cons]
  omega

end

/-- What is counted by what the change keeps. -/
theorem countP_modify_of_keep {p : α → Bool} (hf : ∀ x, p (f x) = p x) :
    (modify key l a f).countP p = l.countP p := by
  rw [modify, countP_map]
  refine countP_congr fun x _ => ?_
  rw [Function.comp_apply]
  split
  · rw [hf x]
  · rfl

theorem mem_modify (hl : Distinct key l) (hx : get key l a = some x) :
    y ∈ modify key l a f ↔ y = f x ∨ y ∈ l ∧ key y ≠ a := by
  obtain ⟨l₁, l₂, -, hrelease, hmodify⟩ := hl.exists_split hx
  rw [← mem_release, hrelease, hmodify]
  simp only [mem_append, mem_cons]
  tauto

theorem get_cons_self (x : α) (l : List α) : get key (x :: l) (key x) = some x :=
  find?_cons_of_pos (decide_eq_true rfl)

theorem get_cons_of_ne (hx : key x ≠ a) : get key (x :: l) a = get key l a :=
  find?_cons_of_neg (by simpa using hx)

/-- What is found after a change. -/
theorem get_modify (hf : ∀ x, key (f x) = key x) (l : List α) (a b : Nat) :
    get key (modify key l a f) b = (get key l b).map fun x => if b = a then f x else x := by
  induction l with
  | nil => rfl
  | cons x l ih =>
    have hkey : key (if key x = a then f x else x) = key x := by
      split
      · exact hf x
      · rfl
    rw [modify] at ih ⊢
    rw [get] at ih ⊢
    rw [map_cons, find?_cons, hkey, get, find?_cons]
    by_cases hx : key x = b
    · simp [hx]
    · simp only [hx, decide_false]
      exact ih

theorem get_modify_self (hf : ∀ x, key (f x) = key x) (hx : get key l a = some x) :
    get key (modify key l a f) a = some (f x) := by
  rw [get_modify hf, hx, Option.map_some, if_pos rfl]

theorem get_modify_of_ne (hf : ∀ x, key (f x) = key x) (hb : b ≠ a) :
    get key (modify key l a f) b = get key l b := by
  rw [get_modify hf]
  simp only [if_neg hb, Option.map_id']

theorem get_release_of_ne (hb : b ≠ a) : get key (release key l a) b = get key l b := by
  rw [get, release, find?_filter]
  refine congrArg (List.find? · l) (funext fun x => ?_)
  by_cases hx : key x = b <;> simp [hx, hb]

end Objects
