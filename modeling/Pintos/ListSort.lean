import Mathlib.Order.Defs.Unbundled
import Pintos.KernelList
import Pintos.NaturalMerge

/-!
# Sorting a list

`list_sort` of `lib/kernel/list.c`: a natural merge sort that moves elements by splicing
them.  Three cursors are in the list, at the beginning of a run, at the end of it, where the
second run begins, and at the end of that.  A cursor is always at the first element of what
follows it, or at the tail.

Each function is compared with what it does to the sequence: `find_end_of_run` cuts off the
maximal run, `inplace_merge` merges two runs, and the inner loop of `list_sort` is a pass.
So **the list is sorted**, elements that are equivalent keep their order, the loops end, and
no assertion fails (`listSort_sorts`).
-/

namespace Pintos.KernelList
open List
open NaturalMerge

variable {E : Type} [DecidableEq E]

/-! ## The code -/

/-- The loop of `is_sorted`, for at most `fuel` rounds. -/
def sortedLoop (less : E → E → Bool) (h : LinkedHeap E) (b : E) : Nat → E → Option Bool
  | 0, _ => none
  | fuel + 1, a => do
    let a ← listNext h a
    if a = b then
      some true
    else if less a (← listPrev h a) then
      some false
    else
      sortedLoop less h b fuel a

/-- `is_sorted`. -/
def isSorted (fuel : Nat) (less : E → E → Bool) (h : LinkedHeap E) (a b : E) : Option Bool :=
  if a ≠ b then sortedLoop less h b fuel a else some true

/-- The loop of `find_end_of_run`. -/
def runLoop (less : E → E → Bool) (h : LinkedHeap E) (b : E) : Nat → E → Option E
  | 0, _ => none
  | fuel + 1, a => do
    let a ← listNext h a
    if a = b then
      some a
    else if less a (← listPrev h a) then
      some a
    else
      runLoop less h b fuel a

/-- `find_end_of_run`. -/
def findEndOfRun (fuel : Nat) (less : E → E → Bool) (h : LinkedHeap E) (a b : E) : Option E := do
  assert (a ≠ b)
  runLoop less h b fuel a

/-- The loop of `inplace_merge`. -/
def mergeLoop (less : E → E → Bool) (b1 : E) :
    Nat → LinkedHeap E → E → E → Option (LinkedHeap E)
  | 0, _, _, _ => none
  | fuel + 1, h, a0, a1b0 =>
    if a0 ≠ a1b0 ∧ a1b0 ≠ b1 then
      if !less a1b0 a0 then do
        mergeLoop less b1 fuel h (← listNext h a0) a1b0
      else do
        let a1b0 ← listNext h a1b0
        let h ← listSplice h a0 (← listPrev h a1b0) a1b0
        mergeLoop less b1 fuel h a0 a1b0
    else
      some h

/-- `inplace_merge`. -/
def inplaceMerge (fuel : Nat) (less : E → E → Bool) (h : LinkedHeap E) (a0 a1b0 b1 : E) :
    Option (LinkedHeap E) := do
  assert ((← isSorted fuel less h a0 a1b0) = true)
  assert ((← isSorted fuel less h a1b0 b1) = true)
  mergeLoop less b1 fuel h a0 a1b0

/-- The inner loop of `list_sort`, for at most as many rounds as the second argument says,
with the heap and `output_run_cnt`.  There are fewer runs than addresses, so that the count
does not wrap around. -/
def sortPass (fuel : Nat) (less : E → E → Bool) (list : KernelList E) :
    Nat → LinkedHeap E → E → Nat → Option (LinkedHeap E × Nat)
  | 0, _, _, _ => none
  | rounds + 1, h, a0, outputRunCnt =>
    if a0 ≠ list.tail then do
      let outputRunCnt := outputRunCnt + 1
      let a1b0 ← findEndOfRun fuel less h a0 list.tail
      if a1b0 = list.tail then
        some (h, outputRunCnt)
      else do
        let b1 ← findEndOfRun fuel less h a1b0 list.tail
        let h ← inplaceMerge fuel less h a0 a1b0 b1
        sortPass fuel less list rounds h b1 outputRunCnt
    else
      some (h, outputRunCnt)

/-- The outer loop of `list_sort`. -/
def sortLoop (fuel : Nat) (less : E → E → Bool) (list : KernelList E) :
    Nat → LinkedHeap E → Option (LinkedHeap E)
  | 0, _ => none
  | passes + 1, h => do
    let (h, outputRunCnt) ← sortPass fuel less list fuel h (← listBegin h list) 0
    if outputRunCnt > 1 then
      sortLoop fuel less list passes h
    else
      some h

/-- `list_sort`. -/
def listSort (fuel : Nat) (less : E → E → Bool) (h : LinkedHeap E) (list : KernelList E) :
    Option (LinkedHeap E) := do
  let h ← sortLoop fuel less list fuel h
  assert ((← isSorted fuel less h (← listBegin h list) list.tail) = true)
  some h

/-! ## The order -/

/-- Not greater. -/
def notGreater (less : E → E → Bool) (a b : E) : Bool :=
  !less b a

section Order
omit [DecidableEq E]
variable {less : E → E → Bool} (hless : IsStrictWeakOrder E fun a b => less a b = true)
include hless

theorem notGreater_total (a b : E) : (notGreater less a b || notGreater less b a) = true := by
  by_contra hneither
  simp only [notGreater, Bool.or_eq_true, Bool.not_eq_true', not_or,
    Bool.not_eq_false] at hneither
  exact hless.irrefl a (hless.trans a b a hneither.2 hneither.1)

theorem notGreater_trans (a b c : E) (hab : notGreater less a b = true)
    (hbc : notGreater less b c = true) : notGreater less a c = true := by
  simp only [notGreater, Bool.not_eq_true'] at *
  by_contra hca
  rw [Bool.not_eq_false] at hca
  -- `c` would be less than `a`, so that both were equivalent to `b`
  have hab' : ¬less a b = true := fun h => by
    rw [hless.trans c a b hca h] at hbc
    exact absurd hbc (by decide)
  have hbc' : ¬less b c = true := fun h => by
    rw [hless.trans b c a h hca] at hab
    exact absurd hab (by decide)
  exact (hless.incomp_trans a b c ⟨hab', by rw [hab]; decide⟩ ⟨hbc', by rw [hbc]; decide⟩).2 hca

end Order

/-! ## Cursors -/

section Cursors
omit [DecidableEq E]
variable {h : LinkedHeap E} {list : KernelList E} {xs ys mid post : List E} {a : E}

theorem WellFormed.listNext_at (hw : WellFormed h list (xs ++ a :: ys)) :
    listNext h a = some (ys.headD list.tail) := by
  have hlink := (WellFormed.neighbours (xs ++ [a]) ys (by simpa using hw)).1
  rw [getLastD_concat] at hlink
  exact listNext_eq hlink.1

theorem WellFormed.listPrev_at (hw : WellFormed h list (xs ++ a :: ys)) :
    listPrev h (ys.headD list.tail) = some a := by
  have hlink := (WellFormed.neighbours (xs ++ [a]) ys (by simpa using hw)).1
  rw [getLastD_concat] at hlink
  exact listPrev_eq hlink.2

/-- Two cursors with an element between them are different. -/
theorem WellFormed.ne_cursor (hw : WellFormed h list (xs ++ a :: (mid ++ post))) :
    a ≠ post.headD list.tail := by
  have hnodup := hw.nodup
  rw [nodes, nodup_cons] at hnodup
  have hsub : (a :: (post ++ [list.tail])).Sublist (xs ++ a :: (mid ++ post) ++ [list.tail]) := by
    rw [append_assoc, cons_append, append_assoc]
    exact ((sublist_append_right mid _).cons_cons a).trans (sublist_append_right xs _)
  have hnot := (nodup_cons.mp (hnodup.2.sublist hsub)).1
  rintro rfl
  cases post <;> simp at hnot

end Cursors

variable {less : E → E → Bool} {h : LinkedHeap E} {list : KernelList E}

/-! ## Runs -/

variable {fuel : Nat}

/-- **`is_sorted` of a run.** -/
theorem WellFormed.sortedLoop {a : E} {xs mid post : List E}
    (hw : WellFormed h list (xs ++ a :: (mid ++ post)))
    (hchain : (a :: mid).IsChain fun a b => notGreater less a b = true)
    (hfuel : mid.length < fuel) :
    sortedLoop less h (post.headD list.tail) fuel a = some true := by
  induction mid generalizing xs a fuel with
  | nil =>
    obtain ⟨fuel, rfl⟩ := Nat.exists_eq_add_one.mpr hfuel
    have hnext := hw.listNext_at
    rw [nil_append] at hnext
    simp [KernelList.sortedLoop, hnext]
  | cons b mid ih =>
    obtain ⟨fuel, rfl⟩ := Nat.exists_eq_add_one.mpr (Nat.zero_lt_of_lt hfuel)
    have hnext := hw.listNext_at
    have hprev := hw.listPrev_at
    have hw' : WellFormed h list ((xs ++ [a]) ++ b :: (mid ++ post)) := by simpa using hw
    obtain ⟨hab, hrest⟩ := isChain_cons_cons.mp hchain
    have hless : less b a = false := by simpa [notGreater] using hab
    rw [cons_append, headD_cons] at hnext hprev
    simp only [KernelList.sortedLoop, hnext, if_neg hw'.ne_cursor, hprev, hless, some_bind]
    exact ih hw' hrest (Nat.lt_of_succ_lt_succ hfuel)

theorem WellFormed.isSorted {xs mid post : List E} (hw : WellFormed h list (xs ++ (mid ++ post)))
    (hchain : mid.IsChain fun a b => notGreater less a b = true) (hfuel : mid.length < fuel) :
    isSorted fuel less h ((mid ++ post).headD list.tail) (post.headD list.tail) = some true := by
  cases mid with
  | nil => simp [KernelList.isSorted]
  | cons a mid =>
    have hne : a ≠ post.headD list.tail := WellFormed.ne_cursor hw
    rw [cons_append, headD_cons, KernelList.isSorted, if_pos hne]
    exact hw.sortedLoop hchain (Nat.lt_of_succ_lt hfuel)

/-- **`find_end_of_run`** cuts off a maximal run. -/
theorem WellFormed.runLoop (less : E → E → Bool) {a : E} {xs ys : List E}
    (hw : WellFormed h list (xs ++ a :: ys)) (hfuel : ys.length < fuel) :
    ∃ mid rest, ys = mid ++ rest ∧ Run (notGreater less) (a :: mid) ∧
      Ends (notGreater less) (a :: mid) rest ∧
      runLoop less h list.tail fuel a = some (rest.headD list.tail) := by
  induction ys generalizing xs a fuel with
  | nil =>
    obtain ⟨fuel, rfl⟩ := Nat.exists_eq_add_one.mpr hfuel
    have hnext := hw.listNext_at
    rw [headD_nil] at hnext
    refine ⟨[], [], rfl, ⟨cons_ne_nil a [], .singleton a⟩, fun _ _ _ hy => ?_, ?_⟩
    · exact nomatch hy
    · simp [KernelList.runLoop, hnext]
  | cons b ys ih =>
    obtain ⟨fuel, rfl⟩ := Nat.exists_eq_add_one.mpr (Nat.zero_lt_of_lt hfuel)
    have hnext := hw.listNext_at
    have hprev := hw.listPrev_at
    have hw' : WellFormed h list ((xs ++ [a]) ++ b :: ys) := by simpa using hw
    have hne : b ≠ list.tail := ne_tail hw'.nodup (by simp)
    rw [headD_cons] at hnext hprev
    by_cases hless : less b a = true
    · -- the next element is less, and the run ends
      refine ⟨[], b :: ys, rfl, ⟨cons_ne_nil a [], .singleton a⟩, ?_, ?_⟩
      · rintro x hx y hy
        obtain rfl : a = x := by simpa using hx
        obtain rfl : b = y := by simpa using hy
        simp [notGreater, hless]
      · simp [KernelList.runLoop, hnext, hne, hprev, hless]
    · obtain ⟨mid, rest, rfl, hrun, hends, hcode⟩ := ih hw' (Nat.lt_of_succ_lt_succ hfuel)
      refine ⟨b :: mid, rest, rfl, ⟨cons_ne_nil a _, ?_⟩, ?_, ?_⟩
      · exact isChain_cons_cons.mpr ⟨by simpa [notGreater] using hless, hrun.chain⟩
      · rwa [Ends, getLast?_cons_cons]
      · simp only [KernelList.runLoop, hnext, if_neg hne, hprev, hless, some_bind]
        exact hcode

theorem WellFormed.findEndOfRun (less : E → E → Bool) {a : E} {xs ys : List E}
    (hw : WellFormed h list (xs ++ a :: ys)) (hfuel : ys.length < fuel) :
    ∃ mid rest, ys = mid ++ rest ∧ Run (notGreater less) (a :: mid) ∧
      Ends (notGreater less) (a :: mid) rest ∧
      findEndOfRun fuel less h a list.tail = some (rest.headD list.tail) := by
  obtain ⟨mid, rest, hys, hrun, hends, hcode⟩ := hw.runLoop less hfuel
  have hne : a ≠ list.tail := ne_tail hw.nodup (by simp)
  exact ⟨mid, rest, hys, hrun, hends, by rw [KernelList.findEndOfRun, assert_of hne]; exact hcode⟩

/-! ## Merging -/

section Rounds
variable {a0 a1b0 b1 c : E} {fuel : Nat}

/-- A round of the merge that leaves the first element in its place. -/
theorem mergeLoop_stay (ha : a0 ≠ a1b0) (hb : a1b0 ≠ b1) (hless : less a1b0 a0 = false)
    (hnext : listNext h a0 = some c) :
    mergeLoop less b1 (fuel + 1) h a0 a1b0 = mergeLoop less b1 fuel h c a1b0 := by
  simp [mergeLoop, ha, hb, hless, hnext]

/-- A round of the merge that brings the first element of the second run before the first of
the first. -/
theorem mergeLoop_move {h' : LinkedHeap E} (ha : a0 ≠ a1b0) (hb : a1b0 ≠ b1)
    (hless : less a1b0 a0 = true) (hnext : listNext h a1b0 = some c)
    (hprev : listPrev h c = some a1b0) (hsplice : listSplice h a0 a1b0 c = some h') :
    mergeLoop less b1 (fuel + 1) h a0 a1b0 = mergeLoop less b1 fuel h' a0 c := by
  simp [mergeLoop, ha, hb, hless, hnext, hprev, hsplice]

end Rounds

section Family
variable {ι : Type} [DecidableEq ι] {lists : ι → KernelList E} {seqs : ι → List E} {i : ι}

variable (less) in
/-- **The loop of `inplace_merge`** merges what is between its cursors. -/
theorem Represents.mergeLoop {pre xs ys post : List E} {fuel : Nat}
    (hr : Represents h lists seqs) (hseq : seqs i = pre ++ (xs ++ (ys ++ post)))
    (hfuel : xs.length + ys.length < fuel) :
    ∃ h', mergeLoop less (post.headD (lists i).tail) fuel h
        ((xs ++ (ys ++ post)).headD (lists i).tail) ((ys ++ post).headD (lists i).tail) = some h' ∧
      Represents h' lists
        (Function.update seqs i (pre ++ (xs.merge ys (notGreater less) ++ post))) := by
  -- every round brings one element into its place
  induction fuel generalizing h seqs pre xs ys with
  | zero => omega
  | succ fuel ih =>
    have hw : WellFormed h (lists i) (pre ++ (xs ++ (ys ++ post))) := hseq ▸ hr.wellFormed i
    cases xs with
    | nil =>
      refine ⟨h, by simp [KernelList.mergeLoop], ?_⟩
      rw [nil_merge, ← nil_append (ys ++ post), ← hseq, Function.update_eq_self]
      exact hr
    | cons x xs =>
      cases ys with
      | nil =>
        refine ⟨h, by simp [KernelList.mergeLoop], ?_⟩
        rw [merge_right, ← nil_append post, ← hseq, Function.update_eq_self]
        exact hr
      | cons y ys =>
        have hwx : WellFormed h (lists i) (pre ++ x :: (xs ++ (y :: ys ++ post))) := hw
        have hwy : WellFormed h (lists i) ((pre ++ x :: xs) ++ y :: (ys ++ post)) := by
          simpa using hw
        have hne : x ≠ y := hwx.ne_cursor
        have hne' : y ≠ post.headD (lists i).tail := hwy.ne_cursor
        simp only [length_cons] at hfuel
        rw [cons_merge_cons]
        by_cases hless : less y x = true
        · -- `y` goes before `x`
          have hnext := hwy.listNext_at
          have hprev := hwy.listPrev_at
          have hcut : seqs i = (pre ++ x :: xs) ++ y :: [] ++ (ys ++ post) := by simp [hseq]
          have hplace : Function.update seqs i ((pre ++ x :: xs) ++ (ys ++ post)) i
              = pre ++ (x :: xs ++ (ys ++ post)) := by simp
          obtain ⟨h₁, hsplice, hr₁⟩ := hr.splice hcut hplace
          rw [Function.update_idem] at hr₁
          have hseq₁ : Function.update seqs i (pre ++ [y] ++ (x :: xs ++ (ys ++ post))) i
              = (pre ++ [y]) ++ (x :: xs ++ (ys ++ post)) := Function.update_self ..
          obtain ⟨h₂, hloop, hr₂⟩ := ih hr₁ hseq₁ (by simp only [length_cons]; omega)
          rw [Function.update_idem] at hr₂
          refine ⟨h₂, (mergeLoop_move hne hne' hless hnext hprev hsplice).trans hloop, ?_⟩
          rw [if_neg (by simp [notGreater, hless])]
          simpa using hr₂
        · -- `x` stays where it is
          have hnext := hwx.listNext_at
          have hseq₁ : seqs i = (pre ++ [x]) ++ (xs ++ (y :: ys ++ post)) := by simp [hseq]
          obtain ⟨h₁, hloop, hr₁⟩ := ih hr hseq₁ (by simp only [length_cons]; omega)
          rw [Bool.not_eq_true] at hless
          refine ⟨h₁, (mergeLoop_stay hne hne' hless hnext).trans hloop, ?_⟩
          rw [if_pos (by simpa [notGreater] using hless)]
          simpa using hr₁

/-- **`inplace_merge`** of two runs. -/
theorem Represents.inplaceMerge {pre xs ys post : List E} {fuel : Nat}
    (hr : Represents h lists seqs) (hseq : seqs i = pre ++ (xs ++ (ys ++ post)))
    (hx : Run (notGreater less) xs) (hy : Run (notGreater less) ys)
    (hfuel : xs.length + ys.length < fuel) :
    ∃ h', inplaceMerge fuel less h ((xs ++ (ys ++ post)).headD (lists i).tail)
        ((ys ++ post).headD (lists i).tail) (post.headD (lists i).tail) = some h' ∧
      Represents h' lists
        (Function.update seqs i (pre ++ (xs.merge ys (notGreater less) ++ post))) := by
  have hw : WellFormed h (lists i) (pre ++ (xs ++ (ys ++ post))) := hseq ▸ hr.wellFormed i
  have hw' : WellFormed h (lists i) ((pre ++ xs) ++ (ys ++ post)) := by
    rwa [append_assoc]
  have hsorted := hw.isSorted hx.chain (Nat.lt_of_le_of_lt (Nat.le_add_right _ _) hfuel)
  have hsorted' := hw'.isSorted hy.chain (Nat.lt_of_le_of_lt (Nat.le_add_left _ _) hfuel)
  obtain ⟨h', hloop, hr'⟩ := hr.mergeLoop less hseq hfuel
  refine ⟨h', ?_, hr'⟩
  simp only [KernelList.inplaceMerge, hsorted, hsorted', assert_of, some_bind, hloop]

/-! ## Passes -/

variable (less) in
/-- **The inner loop of `list_sort` is a pass.** -/
theorem Represents.sortPass {pre l : List E} {fuel rounds : Nat} (hr : Represents h lists seqs)
    (hseq : seqs i = pre ++ l) (hfuel : l.length < fuel) (hrounds : l.length < rounds)
    (cnt : Nat) :
    ∃ h' l' n, Pass (notGreater less) l l' n ∧
      sortPass fuel less (lists i) rounds h (l.headD (lists i).tail) cnt = some (h', cnt + n) ∧
      Represents h' lists (Function.update seqs i (pre ++ l')) := by
  induction rounds generalizing h seqs pre l cnt with
  | zero => omega
  | succ rounds ih =>
    have hw : WellFormed h (lists i) (pre ++ l) := hseq ▸ hr.wellFormed i
    have hself : Represents h lists (Function.update seqs i (pre ++ l)) := by
      rwa [← hseq, Function.update_eq_self]
    cases l with
    | nil => exact ⟨h, [], 0, .nil, by simp [KernelList.sortPass], hself⟩
    | cons a ys =>
      have hne : a ≠ (lists i).tail := ne_tail hw.nodup (by simp)
      rw [length_cons] at hfuel hrounds
      have hlen : ys.length < fuel := by omega
      obtain ⟨mid, rest, rfl, hrun, hends, hfind⟩ := hw.findEndOfRun less hlen
      cases rest with
      | nil =>
        -- one run is left
        rw [append_nil] at hself ⊢
        refine ⟨h, a :: mid, 1, .run hrun, ?_, hself⟩
        simp [KernelList.sortPass, hne, hfind]
      | cons b rest =>
        have hw' : WellFormed h (lists i) ((pre ++ a :: mid) ++ b :: rest) := by simpa using hw
        have hne' : b ≠ (lists i).tail := ne_tail hw'.nodup (by simp)
        simp only [length_append, length_cons] at hlen hrounds
        have hlen' : rest.length < fuel := by omega
        obtain ⟨mid', rest, rfl, hrun', hends', hfind'⟩ := hw'.findEndOfRun less hlen'
        rw [length_append] at hlen hlen' hrounds
        have hruns : (a :: mid).length + (b :: mid').length < fuel := by
          simp only [length_cons, length_append] at hfuel ⊢
          omega
        obtain ⟨h₁, hmerge, hr₁⟩ := hr.inplaceMerge hseq hrun hrun' hruns
        -- what is left is shorter
        have hseq₁ : Function.update seqs i
            (pre ++ ((a :: mid).merge (b :: mid') (notGreater less) ++ rest)) i
              = (pre ++ (a :: mid).merge (b :: mid') (notGreater less)) ++ rest := by simp
        obtain ⟨h₂, l', n, hpass, hcode, hr₂⟩ := ih hr₁ hseq₁ (by omega) (by omega) (cnt + 1)
        rw [Function.update_idem] at hr₂
        refine ⟨h₂, _, n + 1, .pair hrun hrun' hends hends' hpass, ?_, by simpa using hr₂⟩
        have hsteps : KernelList.sortPass fuel less (lists i) (rounds + 1) h a cnt
            = KernelList.sortPass fuel less (lists i) rounds h₁ (rest.headD (lists i).tail)
              (cnt + 1) := by
          rw [headD_cons] at hfind
          simp only [cons_append, headD_cons] at hmerge
          simp only [KernelList.sortPass, ne_eq, hne, not_false_eq_true, if_true, hfind, if_neg
            hne', hfind', hmerge, some_bind]
        rw [headD_cons, hsteps, hcode, Nat.add_assoc, Nat.add_comm 1 n]

section Order
variable (hless : IsStrictWeakOrder E fun a b => less a b = true)
include hless

/-- **The outer loop of `list_sort`** sorts the list. -/
theorem Represents.sortLoop {fuel passes : Nat} (hr : Represents h lists seqs)
    (hfuel : (seqs i).length < fuel) (hpasses : breaks (notGreater less) (seqs i) < passes) :
    ∃ h' l', sortLoop fuel less (lists i) passes h = some h' ∧
      Represents h' lists (Function.update seqs i l') ∧
      Reordered (notGreater less) (seqs i) l' ∧
      l'.IsChain fun a b => notGreater less a b = true := by
  have htotal := notGreater_total hless
  have htrans := notGreater_trans hless
  induction passes generalizing h seqs with
  | zero => omega
  | succ passes ih =>
    have hseq : seqs i = [] ++ seqs i := rfl
    obtain ⟨h₁, l₁, n, hpass, hcode, hr₁⟩ := hr.sortPass less hseq hfuel hfuel 0
    have hmoved := hpass.reordered htrans
    rw [nil_append] at hr₁
    rw [Nat.zero_add] at hcode
    simp only [KernelList.sortLoop, hr.listBegin_eq i, some_bind, hcode]
    by_cases hn : 1 < n
    · -- there are fewer runs than before
      have hlt := hpass.breaks_lt htotal htrans hn
      obtain ⟨h₂, l₂, hloop, hr₂, hmoved₂, hsorted⟩ := ih hr₁
        (by rw [Function.update_self, hmoved.perm.length_eq]; exact hfuel)
        (by rw [Function.update_self]; omega)
      rw [Function.update_idem] at hr₂
      rw [Function.update_self] at hmoved₂
      exact ⟨h₂, l₂, by rw [if_pos hn, hloop], hr₂, hmoved.trans hmoved₂, hsorted⟩
    · exact ⟨h₁, l₁, if_neg hn, hr₁, hmoved, hpass.sorted htotal htrans (Nat.not_lt.mp hn)⟩

/-- **`list_sort` is a stable sort.**  It ends, no assertion fails, the list has its elements
in an order in which none is less than an earlier one, elements that are equivalent are in the
order they were in, and the other lists are as they were. -/
theorem listSort_sorts (hr : Represents h lists seqs) (i : ι) {fuel : Nat}
    (hfuel : (seqs i).length < fuel) :
    ∃ h' l', listSort fuel less h (lists i) = some h' ∧
      Represents h' lists (Function.update seqs i l') ∧ l'.Perm (seqs i) ∧
      l'.Pairwise (fun a b => less b a = false) ∧
      ∀ e, l'.filter (fun x => !less e x && !less x e) =
        (seqs i).filter fun x => !less e x && !less x e := by
  have hbreaks : breaks (notGreater less) (seqs i) ≤ (seqs i).length := breaks_le_length _
  obtain ⟨h', l', hloop, hr', hmoved, hsorted⟩ :=
    hr.sortLoop hless hfuel (Nat.lt_of_le_of_lt hbreaks hfuel)
  have hseq : Function.update seqs i l' i = l' := Function.update_self ..
  have hw : WellFormed h' (lists i) ([] ++ (l' ++ [])) := by
    have hw := hr'.wellFormed i
    rwa [hseq, ← append_nil l'] at hw
  have hcheck := hw.isSorted hsorted (hmoved.perm.length_eq ▸ hfuel)
  have hbegin := hr'.listBegin_eq i
  rw [hseq] at hbegin
  rw [append_nil, headD_nil] at hcheck
  refine ⟨h', l', ?_, hr', hmoved.perm, ?_, fun e => ?_⟩
  · simp only [listSort, hloop, hbegin, hcheck, assert_of, some_bind]
  · have htrans := notGreater_trans hless
    have : Trans (fun a b => notGreater less a b = true) (fun a b => notGreater less a b = true)
        fun a b => notGreater less a b = true := ⟨fun {a b c} => htrans a b c⟩
    refine (isChain_iff_pairwise.mp hsorted).imp fun {a b} hab => ?_
    simpa [notGreater] using hab
  · have hclass : (fun x => !less e x && !less x e) = equivalent (notGreater less) e := by
      funext x
      rw [equivalent, notGreater, notGreater, Bool.and_comm]
    rw [hclass, hmoved.stable e]

end Order
end Family

/-- Three elements, the first two of which are equivalent, in a list made from scratch. -/
theorem listSort_sorts_three :
    ∃ h h' : LinkedHeap Nat, ∃ l',
      Represents h (fun _ : Unit => ⟨0, 1⟩) (fun _ => [20, 21, 10]) ∧
      listSort 4 (fun a b => a / 10 < b / 10) h ⟨0, 1⟩ = some h' ∧
      Represents h' (fun _ : Unit => ⟨0, 1⟩) (fun _ => l') ∧ l'.Perm [20, 21, 10] ∧
      l'.filter (fun x => !decide (20 / 10 < x / 10) && !decide (x / 10 < 20 / 10)) = [20, 21] := by
  have hr : Represents (listInit (fun _ => ⟨none, none⟩) ⟨0, 1⟩) (fun _ : Unit => ⟨0, 1⟩)
      (fun _ => ([] : List Nat)) := represents_listInit (by decide)
  have hupdate : ∀ (seqs : Unit → List Nat) xs, Function.update seqs () xs = fun _ => xs :=
    fun seqs xs => Function.update_eq_const_of_subsingleton () xs seqs
  obtain ⟨h₁, -, hr₁⟩ := hr.insert (i := ()) [] [] rfl (show Fresh _ _ 10 by simp [Fresh, nodes])
  rw [hupdate] at hr₁
  obtain ⟨h₂, -, hr₂⟩ := hr₁.insert (i := ()) [] [10] rfl
    (show Fresh _ _ 21 by simp [Fresh, nodes])
  rw [hupdate] at hr₂
  obtain ⟨h₃, -, hr₃⟩ := hr₂.insert (i := ()) [] [21, 10] rfl
    (show Fresh _ _ 20 by simp [Fresh, nodes])
  rw [hupdate] at hr₃
  have hless : IsStrictWeakOrder Nat fun a b => decide (a / 10 < b / 10) = true :=
    { irrefl := fun a => by simp
      trans := fun a b c => by simp only [decide_eq_true_eq]; omega
      incomp_trans := fun a b c => by simp only [decide_eq_true_eq]; omega }
  obtain ⟨h', l', hcode, hr', hperm, -, hstable⟩ :=
    listSort_sorts hless hr₃ () (by decide : [20, 21, 10].length < 4)
  rw [hupdate] at hr'
  exact ⟨h₃, h', l', hr₃, hcode, hr', hperm, (hstable 20).trans (by decide)⟩

end Pintos.KernelList
