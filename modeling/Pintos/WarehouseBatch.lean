import Mathlib.Data.List.Sort
import Pintos.GreedySelection
import Pintos.WarehouseRun

/-!
# The batch of accepted moves

Stage 2 of a round looks for the robot that has waited longest among those not considered
yet, and accepts its move if `can_accept_batch_move` allows it: a robot whose move is
accepted must not have a current or next cell in common with it, and any other robot must
not stand where it goes, unless that is a shared place.

The second test never fails: the cell a robot wants to go to is open, so nobody stands on
it if it is not shared (`canAcceptBatchMove_iff_conflict`).  And the repeated search goes
through the robots in the order of their waiting times (`longestWaiting_eq_head`).  So
**the batch is a greedy selection in waiting order** (`batch_greedy`).
-/

namespace Pintos.Warehouse
open GreedySelection (select)

variable {n : Nat} {c : Central n} {i j : Fin n}

namespace Central

/-! ## The waiting order -/

/-- Robot `i` comes before robot `j`: it has waited longer, or as long and has the smaller
index. -/
def Precedes (c : Central n) (i j : Fin n) : Prop :=
  c.waitSteps.get i > c.waitSteps.get j ∨ c.waitSteps.get i = c.waitSteps.get j ∧ i < j

instance : DecidableRel c.Precedes :=
  fun _ _ => inferInstanceAs (Decidable (_ ∨ _ ∧ _))

theorem Precedes.trans {k : Fin n} (h : c.Precedes i j) (h' : c.Precedes j k) :
    c.Precedes i k := by
  unfold Precedes at *
  omega

theorem Precedes.asymm (h : c.Precedes i j) : ¬c.Precedes j i := by
  unfold Precedes at *
  omega

theorem precedes_total (hne : i ≠ j) : c.Precedes i j ∨ c.Precedes j i := by
  unfold Precedes
  omega

/-- The uncompleted robots, in waiting order. -/
def waitingOrder (c : Central n) : List (Fin n) :=
  ((List.finRange n).filter fun i => !(c.robot i).taskCompleted).insertionSort fun i j =>
    i = j ∨ c.Precedes i j

theorem mem_waitingOrder : i ∈ c.waitingOrder ↔ (c.robot i).taskCompleted = false := by
  simp [waitingOrder]

/-- The order is the waiting order. -/
theorem pairwise_waitingOrder (c : Central n) : c.waitingOrder.Pairwise c.Precedes := by
  have htotal : Std.Total fun i j : Fin n => i = j ∨ c.Precedes i j := by
    refine ⟨fun i j => ?_⟩
    by_cases hne : i = j
    · exact .inl (.inl hne)
    · exact (precedes_total hne).imp .inr .inr
  have htrans : IsTrans (Fin n) fun i j : Fin n => i = j ∨ c.Precedes i j := by
    refine ⟨fun i j k hij hjk => ?_⟩
    rcases hij with rfl | hij
    · exact hjk
    · rcases hjk with rfl | hjk
      · exact .inr hij
      · exact .inr (hij.trans hjk)
  have hsorted : c.waitingOrder.Pairwise fun i j => i = j ∨ c.Precedes i j :=
    List.pairwise_insertionSort _ _
  have hnodup : c.waitingOrder.Nodup :=
    (List.perm_insertionSort _ _).nodup_iff.mpr ((List.nodup_finRange n).filter _)
  exact (hsorted.and hnodup).imp fun h => h.1.resolve_left h.2

/-! ## The search for the next robot -/

/-- The robot is still to be considered. -/
def Waiting (c : Central n) (considered : Vector Bool n) (i : Fin n) : Prop :=
  considered.get i = false ∧ (c.robot i).taskCompleted = false

/-- **The search finds the head** of the robots still to be considered, in waiting order. -/
theorem longestWaiting_eq_head {considered : Vector Bool n} {rest : List (Fin n)}
    (hsorted : rest.Pairwise c.Precedes) (hmem : ∀ i, i ∈ rest ↔ c.Waiting considered i) :
    c.longestWaiting considered = rest.head? := by
  rcases c.longestWaiting_cases considered with ⟨hfound, hnone⟩ | ⟨i, hfound, hi, hfirst⟩
  · rw [hfound]
    cases rest with
    | nil => rfl
    | cons k rest =>
      obtain ⟨hcons, hdone⟩ := (hmem k).mp List.mem_cons_self
      rcases hnone k with h | h
      · rw [hcons] at h
        cases h
      · rw [hdone] at h
        cases h
  · rw [hfound]
    have hi : i ∈ rest := (hmem i).mpr hi
    cases rest with
    | nil => exact absurd hi List.not_mem_nil
    | cons k rest =>
      rcases List.mem_cons.mp hi with rfl | hi
      · rfl
      · have hki : c.Precedes k i := (List.pairwise_cons.mp hsorted).1 i hi
        obtain ⟨hle, heq⟩ := hfirst k ((hmem k).mp List.mem_cons_self)
        rcases hki with hgt | ⟨he, hlt⟩
        · exact absurd hgt (Int.not_lt.mpr hle)
        · rcases heq he with rfl | hik
          · rfl
          · exact absurd hlt (Fin.not_lt.mpr (Fin.le_of_lt hik))

/-! ## The test -/

/-- Two robots are in conflict: one of them is on, or wants to go to, a cell that the other
one is on or wants to go to. -/
def Conflict (c : Central n) (i j : Fin n) : Prop :=
  ∃ p ∈ [(c.robot i).pos, c.desiredPos i], p ∈ [(c.robot j).pos, c.desiredPos j]

instance : DecidableRel c.Conflict :=
  fun _ _ => inferInstanceAs (Decidable (∃ p ∈ _, _))

theorem not_conflict_iff : ¬c.Conflict i j ↔ c.Apart i j := by
  simp only [Conflict, List.mem_cons, List.not_mem_nil, or_false, exists_eq_or_imp,
    exists_eq_left, not_or]
  exact ⟨fun ⟨⟨h1, h2⟩, h3, h4⟩ => ⟨h1, h2, h3, h4⟩,
    fun h => ⟨⟨h.pos_pos, h.pos_next⟩, h.next_pos, h.next_next⟩⟩

variable {accepted : Vector Bool n}

theorem inTheWay_eq_false_iff (hj : accepted.get j = true) :
    c.inTheWay c.stage1 accepted i j = false ↔ c.Apart i j := by
  refine ⟨inTheWay_of_accepted hj, fun h => ?_⟩
  unfold inTheWay
  rw [if_pos hj, stage1_nextPos, stage1_nextPos, decide_eq_false_iff_not]
  rintro (h' | h' | h' | h')
  · exact h.pos_pos h'
  · exact h.pos_next h'
  · exact h.next_pos h'
  · exact h.next_next h'

/-- A robot whose move is not accepted is in nobody's way: the cell wanted is open. -/
theorem inTheWay_of_not_accepted (hin : InMap (c.robot i).pos) (hwant : c.desiredCmd i ≠ .wait)
    (hj : accepted.get j = false) :
    c.inTheWay c.stage1 accepted i j = false := by
  obtain ⟨-, -, hopen⟩ := isBlockedCell_eq_false_iff.mp (desiredPos_open hin hwant)
  unfold inTheWay
  simp only [hj, Bool.false_eq_true, if_false, stage1_nextPos, decide_eq_false_iff_not,
    Bool.not_eq_true']
  rintro ⟨hshared, hpos⟩
  rcases hopen with h | ⟨hfree, -⟩
  · rw [h] at hshared
    cases hshared
  · exact hfree j hpos.symm

/-- **The test allows a move** exactly if it is in conflict with no accepted one. -/
theorem canAcceptBatchMove_iff_conflict (hin : InMap (c.robot i).pos)
    (hwant : c.desiredCmd i ≠ .wait) :
    c.canAcceptBatchMove c.stage1 accepted i = true ↔
      ∀ j, j ≠ i → accepted.get j = true → ¬c.Conflict i j := by
  rw [canAcceptBatchMove_iff]
  refine forall_congr' fun j => imp_congr_right fun _ => ?_
  cases hj : accepted.get j with
  | false => simp [inTheWay_of_not_accepted hin hwant hj]
  | true => simp [inTheWay_eq_false_iff hj, not_conflict_iff]

/-! ## The loop -/

/-- The robots the loop would accept from `rest` on. -/
def greedy (c : Central n) (taken rest : List (Fin n)) : List (Fin n) :=
  select (fun i => c.desiredCmd i ≠ .wait) c.Conflict taken rest

/-- **The invariant of the loop**: the robots in `taken` are accepted and those in `rest`
are still to be considered. -/
structure Selecting (c : Central n) (b : Batch n) (taken rest : List (Fin n)) : Prop where
  sorted : rest.Pairwise c.Precedes
  mem_rest : ∀ i, i ∈ rest ↔ c.Waiting b.considered i
  mem_taken : ∀ i, i ∈ taken ↔ b.accepted.get i = true
  considered : ∀ i ∈ taken, b.considered.get i = true

section
variable {b : Batch n} {taken rest : List (Fin n)} (hin : ∀ i, InMap (c.robot i).pos)
include hin

/-- Considering the next robot. -/
theorem Selecting.consider (h : c.Selecting b taken (i :: rest)) :
    c.Selecting (c.consider c.stage1 b i)
      (if c.desiredCmd i ≠ .wait ∧ ∀ j ∈ taken, ¬c.Conflict i j then taken ++ [i] else taken)
      rest := by
  obtain ⟨hfirst, hsorted⟩ := List.pairwise_cons.mp h.sorted
  obtain ⟨hnew, -⟩ := (h.mem_rest i).mp List.mem_cons_self
  have hnotTaken : i ∉ taken := fun hi => by
    have := h.considered i hi
    rw [hnew] at this
    cases this
  have hnotRest : i ∉ rest := fun hi => (hfirst i hi).asymm (hfirst i hi)
  have hrest : ∀ k, k ∈ rest ↔ c.Waiting (b.considered.set i true i.isLt) k := by
    intro k
    unfold Waiting
    rw [get_set_fin]
    by_cases hik : i = k
    · subst hik
      simp [hnotRest]
    · have := h.mem_rest k
      rw [List.mem_cons] at this
      rw [if_neg hik, ← Waiting, ← this]
      simp [Ne.symm hik]
  have htest : c.desiredCmd i ≠ .wait → (c.canAcceptBatchMove c.stage1 b.accepted i = true ↔
      ∀ j ∈ taken, ¬c.Conflict i j) := by
    intro hwant
    rw [canAcceptBatchMove_iff_conflict (hin i) hwant]
    refine ⟨fun hall j hj => ?_, fun hall j _ hj => hall j ((h.mem_taken j).mpr hj)⟩
    refine hall j ?_ ((h.mem_taken j).mp hj)
    rintro rfl
    exact hnotTaken hj
  unfold Central.consider
  rw [stage1_desiredCmd]
  by_cases hwant : c.desiredCmd i ≠ .wait
  · by_cases hfree : ∀ j ∈ taken, ¬c.Conflict i j
    · rw [if_pos ⟨hwant, (htest hwant).mpr hfree⟩, if_pos ⟨hwant, hfree⟩]
      refine ⟨hsorted, hrest, fun k => ?_, fun k hk => ?_⟩
      · rw [List.mem_append, List.mem_singleton, h.mem_taken k, get_set_fin]
        by_cases hik : i = k
        · simp [hik]
        · simp [hik, Ne.symm hik]
      · rw [get_set_fin]
        rcases List.mem_append.mp hk with hk | hk
        · rw [h.considered k hk, ite_self]
        · rw [if_pos (List.mem_singleton.mp hk).symm]
    · rw [if_neg fun hboth => hfree ((htest hwant).mp hboth.2), if_neg fun hboth => hfree hboth.2]
      refine ⟨hsorted, hrest, h.mem_taken, fun k hk => ?_⟩
      rw [get_set_fin, h.considered k hk, ite_self]
  · rw [if_neg fun hboth => hwant hboth.1, if_neg fun hboth => hwant hboth.1]
    refine ⟨hsorted, hrest, h.mem_taken, fun k hk => ?_⟩
    rw [get_set_fin, h.considered k hk, ite_self]

/-- **The loop is the greedy selection.** -/
theorem Selecting.acceptLoop {k : Nat} (h : c.Selecting b taken rest) (hk : rest.length ≤ k) :
    ∀ i, i ∈ c.greedy taken rest ↔ (c.acceptLoop c.stage1 k b).accepted.get i = true := by
  induction k generalizing b taken rest with
  | zero =>
    obtain rfl := List.eq_nil_of_length_eq_zero (Nat.le_zero.mp hk)
    exact h.mem_taken
  | succ k ih =>
    rw [Central.acceptLoop, longestWaiting_eq_head h.sorted h.mem_rest]
    cases rest with
    | nil => exact h.mem_taken
    | cons j rest =>
      have hstep := ih (h.consider hin) (Nat.le_of_succ_le_succ hk)
      have hgreedy : c.greedy taken (j :: rest) = c.greedy
          (if c.desiredCmd j ≠ .wait ∧ ∀ x ∈ taken, ¬c.Conflict j x then taken ++ [j] else taken)
          rest := by
        unfold greedy
        rw [select]
        split <;> rfl
      rw [hgreedy]
      exact hstep

end

theorem mem_greedy_iff (hin : ∀ i, InMap (c.robot i).pos) :
    i ∈ c.greedy [] c.waitingOrder ↔ (c.batch c.stage1).accepted.get i = true := by
  refine Selecting.acceptLoop hin ⟨pairwise_waitingOrder c, fun i => ?_, fun i => ?_, ?_⟩ ?_ i
  · simp [mem_waitingOrder, Waiting]
  · simp
  · simp
  · have hlen : c.waitingOrder.length ≤ (List.finRange n).length := by
      rw [waitingOrder, List.length_insertionSort]
      exact List.length_filter_le _ _
    rwa [List.length_finRange] at hlen

end Central

/-- **Batch acceptance is greedy in waiting order.**  At the start of every round the
accepted robots are those that a greedy selection takes; the first that wants to move is
among them, no two of them are in conflict, and one that is left out is in conflict with an
accepted one before it. -/
theorem batch_greedy (tasks : Fin n → Int × Int)
    (h : (system tasks).Reachable ⟨c, .roundStart⟩) :
    let read := c.readStatuses
    let accepted := fun i : Fin n => (read.batch read.stage1).accepted.get i = true
    (∀ i, accepted i ↔ i ∈ read.greedy [] read.waitingOrder) ∧
    (∀ i, (read.robot i).taskCompleted = false → read.desiredCmd i ≠ .wait →
      (∀ j, (read.robot j).taskCompleted = false → read.Precedes j i → read.desiredCmd j = .wait) →
      accepted i) ∧
    (∀ i j, accepted i → accepted j → i ≠ j → ¬read.Conflict i j) ∧
    ∀ i, (read.robot i).taskCompleted = false → read.desiredCmd i ≠ .wait → ¬accepted i →
      ∃ j, accepted j ∧ read.Precedes j i ∧ read.Conflict i j := by
  have hsafe : c.Safe := inv_reachable h
  simp only [hsafe.readStatuses_eq]
  have hin := hsafe.inMap
  have hinv := Central.accepted_batch c
  have hrejected : ∀ i, (c.robot i).taskCompleted = false → c.desiredCmd i ≠ .wait →
      ¬(c.batch c.stage1).accepted.get i = true →
      ∃ j, (c.batch c.stage1).accepted.get j = true ∧ c.Precedes j i ∧ c.Conflict i j := by
    intro i hdone hwant hnot
    rw [← Central.mem_greedy_iff hin] at hnot
    obtain ⟨l₁, l₂, hsplit, j, hj, hconf, hbefore⟩ :=
      GreedySelection.conflict_of_notMem_select (x := i) hwant
        (Central.mem_waitingOrder.mpr hdone) hnot
    have hsorted := Central.pairwise_waitingOrder c
    rw [hsplit] at hsorted
    have hprec := (List.pairwise_append.mp hsorted).2.2 j (hbefore.resolve_left List.not_mem_nil) i
      List.mem_cons_self
    exact ⟨j, (Central.mem_greedy_iff hin).mp hj, hprec, hconf⟩
  refine ⟨fun i => (Central.mem_greedy_iff hin).symm, fun i hdone hwant hfirst => ?_,
    fun i j hi hj hne => Central.not_conflict_iff.mpr (hinv.apart i j hi hj hne), hrejected⟩
  by_contra hnot
  obtain ⟨j, hj, hprec, -⟩ := hrejected i hdone hwant hnot
  obtain ⟨hmoves, hopen⟩ := hinv.moves j hj
  exact hmoves (hfirst j hopen hprec)

/-- Two robots that leave `W` together: the first is accepted, the second has to wait. -/
theorem batch_greedy_start :
    let tasks : Fin 2 → Int × Int := [(1, chr 'A'), (4, chr 'B')].get
    let c := (Central.start tasks).readStatuses
    c.greedy [] c.waitingOrder = [0] ∧ (c.batch c.stage1).accepted.get 0 = true := by
  intro tasks c
  have hgreedy : c.greedy [] c.waitingOrder = [0] := by decide +kernel
  have h := (batch_greedy tasks (c := Central.start tasks) (.init rfl)).1 0
  exact ⟨hgreedy, h.mpr (hgreedy ▸ List.mem_cons_self)⟩

end Pintos.Warehouse
