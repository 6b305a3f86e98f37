import Mathlib.Data.Fintype.Card
import Mathlib.Order.WithBot
import Pintos.WarehouseControl

/-!
# What a round decides

Three facts about the commands of a round carry everything that follows, whatever
the robots' tasks and however long they have waited:

* a robot that is told to move has not completed its task, and the cell it is
  sent to is open to it at the start of the round (`Central.command_open`);
* two robots that are told to move have no current or next cell in common
  (`Central.command_apart`);
* if any robot wants to move, some robot is told to (`Central.command_of_desired`).

The first two are an invariant of the loop that accepts moves one by one
(`Accepted`), and hold of the deadlock's victim because it moves alone.
-/

namespace Pintos.Warehouse
open FirstBest

variable {n : Nat} {α : Type}

/-- Reading back an entry of an array. -/
@[simp] theorem get_set_fin (v : Vector α n) (i j : Fin n) (x : α) :
    (v.set i x i.isLt).get j = if i = j then x else v.get j := by
  show (v.set i x i.isLt)[j.val] = if i = j then x else v[j.val]
  simp only [Vector.getElem_set, Fin.ext_iff]

@[simp] theorem get_ofFn_fin (f : Fin n → α) (i : Fin n) :
    (Vector.ofFn f).get i = f i := by
  show (Vector.ofFn f)[i.val] = f i
  rw [Vector.getElem_ofFn]

@[simp] theorem get_replicate_fin (x : α) (i : Fin n) :
    (Vector.replicate n x).get i = x := by
  show (Vector.replicate n x)[i.val] = x
  rw [Vector.getElem_replicate]

/-- Two arrays with the same entries are the same. -/
theorem vector_ext_fin {v w : Vector α n} (h : ∀ i : Fin n, v.get i = w.get i) :
    v = w := by
  ext i hi
  exact h ⟨i, hi⟩

namespace Central

/-! ## Stage 1 -/

/-- The cell robot `i` wants to move to. -/
def desiredPos (c : Central n) (i : Fin n) : Int × Int :=
  getNextPosition (c.robot i).row (c.robot i).col (c.desiredCmd i)

theorem stage1_desiredCmd (c : Central n) (i : Fin n) :
    c.stage1.desiredCmd.get i = c.desiredCmd i := by
  rw [stage1, get_ofFn_fin]

theorem stage1_nextPos (c : Central n) (i : Fin n) : c.stage1.nextPos.get i = c.desiredPos i := by
  rw [stage1, get_ofFn_fin, get_ofFn_fin]
  rfl

variable {c : Central n} {i : Fin n}

/-- A robot on the map wants to move to open cells only. -/
theorem desiredPos_open (hin : InMap (c.robot i).pos) (hd : c.desiredCmd i ≠ .wait) :
    isBlockedCell c.robot (c.robot i) (c.desiredPos i).1 (c.desiredPos i).2 = false := by
  unfold desiredPos
  unfold desiredCmd at hd ⊢
  split at hd
  · exact absurd rfl hd
  · split at hd
    · exact absurd rfl hd
    · rename_i h1 h2
      rw [if_neg h1, if_neg h2]
      exact getNextDirection_open c.robot hin hd

/-! ## Stage 2 -/

theorem keepsBest_longerWaiting (c : Central n) (considered : Vector Bool n) :
    KeepsBest (c.longerWaiting considered)
      (fun i => considered.get i = false ∧ (c.robot i).taskCompleted = false) some
      fun best => best.elim ⊥ fun i => (c.waitSteps.get i : WithBot Int) := by
  intro best i
  unfold longerWaiting
  split
  · rename_i hskip
    exact .inr ⟨fun h => by simp [h] at hskip, rfl⟩
  · rename_i hskip
    have hwait : considered.get i = false ∧ (c.robot i).taskCompleted = false := by
      simpa using hskip
    cases best with
    | none => exact .inl ⟨⟨hwait, WithBot.bot_lt_coe _⟩, rfl⟩
    | some j =>
      dsimp only
      split
      · rename_i hlt
        exact .inl ⟨⟨hwait, WithBot.coe_lt_coe.mpr hlt⟩, rfl⟩
      · rename_i hle
        exact .inr ⟨fun _ => WithBot.coe_le_coe.mpr (Int.not_lt.mp hle), rfl⟩

/-- **The next robot to consider** is the first of those that have waited longest. -/
theorem longestWaiting_cases (c : Central n) (considered : Vector Bool n) :
    (c.longestWaiting considered = none ∧
      ∀ i, considered.get i = true ∨ (c.robot i).taskCompleted = true) ∨
    ∃ i, c.longestWaiting considered = some i ∧
      (considered.get i = false ∧ (c.robot i).taskCompleted = false) ∧
      ∀ j, considered.get j = false ∧ (c.robot j).taskCompleted = false →
        c.waitSteps.get j ≤ c.waitSteps.get i ∧
        (c.waitSteps.get j = c.waitSteps.get i → j = i ∨ i < j) := by
  rcases (keepsBest_longerWaiting c considered).foldl (List.pairwise_lt_finRange n) none with
    ⟨hres, hall⟩ | ⟨i, -, hres, hi, -, hall⟩
  · refine .inl ⟨hres, fun i => ?_⟩
    have hnot := mt (hall i (List.mem_finRange i)) (WithBot.not_coe_le_bot _)
    simpa [or_iff_not_imp_left] using hnot
  · refine .inr ⟨i, hres, hi, fun j hj => ?_⟩
    obtain ⟨hle, hfirst⟩ := hall j (List.mem_finRange j) hj
    exact ⟨WithBot.coe_le_coe.mp hle, fun he => hfirst (congrArg _ he)⟩

theorem longestWaiting_some {considered : Vector Bool n}
    (h : c.longestWaiting considered = some i) :
    considered.get i = false ∧ (c.robot i).taskCompleted = false := by
  rcases c.longestWaiting_cases considered with ⟨hres, -⟩ | ⟨j, hres, hj, -⟩
  · cases hres.symm.trans h
  · cases hres.symm.trans h
    exact hj

theorem longestWaiting_none {considered : Vector Bool n} (h : c.longestWaiting considered = none)
    (i : Fin n) :
    considered.get i = true ∨ (c.robot i).taskCompleted = true := by
  rcases c.longestWaiting_cases considered with ⟨-, hall⟩ | ⟨j, hres, -⟩
  · exact hall i
  · cases hres.symm.trans h

/-- Robots `i` and `j` have no current or wanted cell in common. -/
structure Apart (c : Central n) (i j : Fin n) : Prop where
  pos_pos : (c.robot i).pos ≠ (c.robot j).pos
  pos_next : (c.robot i).pos ≠ c.desiredPos j
  next_pos : c.desiredPos i ≠ (c.robot j).pos
  next_next : c.desiredPos i ≠ c.desiredPos j

theorem Apart.symm {i j : Fin n} (h : c.Apart i j) : c.Apart j i :=
  ⟨h.pos_pos.symm, h.next_pos.symm, h.pos_next.symm, h.next_next.symm⟩

theorem inTheWay_of_accepted {accepted : Vector Bool n} {i j : Fin n} (hj : accepted.get j = true)
    (h : c.inTheWay c.stage1 accepted i j = false) : c.Apart i j := by
  unfold inTheWay at h
  rw [if_pos hj, stage1_nextPos, stage1_nextPos, decide_eq_false_iff_not, not_or, not_or,
    not_or] at h
  exact ⟨h.1, h.2.1, h.2.2.1, h.2.2.2⟩

theorem canAcceptBatchMove_iff {p : Stage1 n} {accepted : Vector Bool n} :
    c.canAcceptBatchMove p accepted i = true ↔
      ∀ j, j ≠ i → c.inTheWay p accepted i j = false := by
  simp only [canAcceptBatchMove, List.all_eq_true, List.mem_finRange, forall_true_left,
    decide_eq_true_eq, Bool.not_eq_true']
  constructor
  · intro h j hj
    exact (h j).resolve_left hj
  · intro h j
    exact (Classical.em (j = i)).imp_right (h j)

/-- **The invariant of the accepting loop**: accepted robots have a move they
want, are not done, and are pairwise apart; `acceptedCount` is zero iff none is
accepted. -/
structure Accepted (c : Central n) (b : Batch n) : Prop where
  moves : ∀ i, b.accepted.get i = true →
    c.desiredCmd i ≠ .wait ∧ (c.robot i).taskCompleted = false
  apart : ∀ i j, b.accepted.get i = true → b.accepted.get j = true → i ≠ j → c.Apart i j
  count : b.acceptedCount = 0 ↔ ∀ i : Fin n, b.accepted.get i = false

theorem Accepted.consider {b : Batch n} (h : c.Accepted b) (hi : (c.robot i).taskCompleted = false) :
    c.Accepted (c.consider c.stage1 b i) := by
  unfold Central.consider
  split
  · rename_i hacc
    rw [stage1_desiredCmd, canAcceptBatchMove_iff] at hacc
    obtain ⟨hd, hway⟩ := hacc
    refine ⟨fun k hk => ?_, fun k l hk hl hkl => ?_,
      ⟨fun h0 => absurd h0 (Nat.succ_ne_zero _), fun h0 => ?_⟩⟩
    · rw [get_set_fin] at hk
      split at hk
      · rename_i he
        exact he ▸ ⟨hd, hi⟩
      · exact h.moves k hk
    · rw [get_set_fin] at hk hl
      split at hk
      · rename_i hik
        subst hik
        rw [if_neg hkl] at hl
        exact inTheWay_of_accepted hl (hway l hkl.symm)
      · rename_i hik
        split at hl
        · rename_i hil
          subst hil
          exact (inTheWay_of_accepted hk (hway k (Ne.symm hik))).symm
        · exact h.apart k l hk hl hkl
    · have := h0 i
      rw [get_set_fin, if_pos rfl] at this
      cases this
  · exact ⟨h.moves, h.apart, h.count⟩

theorem Accepted.acceptLoop : ∀ (k : Nat) {b : Batch n}, c.Accepted b →
    c.Accepted (c.acceptLoop c.stage1 k b)
  | 0, _, h => h
  | k + 1, b, h => by
    unfold Central.acceptLoop
    split
    · exact h
    · rename_i i hi
      exact Accepted.acceptLoop k (h.consider (longestWaiting_some hi).2)

/-- The loop begins with nobody considered. -/
theorem accepted_empty (c : Central n) :
    c.Accepted ⟨.replicate n false, .replicate n false, 0⟩ := by
  refine ⟨?_, ?_, fun _ i => get_replicate_fin false i, fun _ => rfl⟩
  · intro i hi
    rw [get_replicate_fin] at hi
    cases hi
  · intro i j hi
    rw [get_replicate_fin] at hi
    cases hi

theorem accepted_batch (c : Central n) : c.Accepted (c.batch c.stage1) :=
  Accepted.acceptLoop n (accepted_empty c)

/-! ### Everybody is considered -/

/-- The robots considered so far. -/
def consideredSet (b : Batch n) : Finset (Fin n) :=
  Finset.univ.filter fun i => b.considered.get i = true

theorem consider_considered (c : Central n) (p : Stage1 n) (b : Batch n) (i : Fin n) :
    (c.consider p b i).considered = b.considered.set i true i.isLt := by
  unfold consider
  split <;> rfl

theorem card_consideredSet_consider {p : Stage1 n} {b : Batch n} (hi : b.considered.get i = false) :
    (consideredSet (c.consider p b i)).card = (consideredSet b).card + 1 := by
  have hins : consideredSet (c.consider p b i) = insert i (consideredSet b) := by
    ext j
    simp only [consideredSet, Finset.mem_filter, Finset.mem_univ, true_and, Finset.mem_insert,
      consider_considered, get_set_fin]
    by_cases hj : i = j
    · simp [hj]
    · simp [hj, Ne.symm hj]
  rw [hins, Finset.card_insert_of_notMem]
  intro hmem
  have htrue := (Finset.mem_filter.mp hmem).2
  rw [hi] at htrue
  cases htrue

/-- With enough turns the loop considers every robot that is not done. -/
theorem acceptLoop_considered (c : Central n) (p : Stage1 n) : ∀ (k : Nat) (b : Batch n),
    n ≤ (consideredSet b).card + k → ∀ i : Fin n,
      (c.acceptLoop p k b).considered.get i = true ∨ (c.robot i).taskCompleted = true
  | 0, b, hk, i => by
    have hcard : (consideredSet b).card = Fintype.card (Fin n) := by
      rw [Fintype.card_fin]
      refine Nat.le_antisymm ?_ hk
      exact Nat.le_trans (Finset.card_le_univ _) (by rw [Fintype.card_fin])
    have hi : i ∈ consideredSet b := by
      rw [(Finset.card_eq_iff_eq_univ _).mp hcard]
      exact Finset.mem_univ i
    exact Or.inl (by simpa [consideredSet, acceptLoop] using hi)
  | k + 1, b, hk, i => by
    cases hj : c.longestWaiting b.considered with
    | none =>
      rw [show c.acceptLoop p (k + 1) b = b by simp only [acceptLoop, hj]]
      exact longestWaiting_none hj i
    | some j =>
      rw [show c.acceptLoop p (k + 1) b = c.acceptLoop p k (c.consider p b j) by
        simp only [acceptLoop, hj]]
      refine acceptLoop_considered c p k _ ?_ i
      rw [card_consideredSet_consider (longestWaiting_some hj).1]
      omega

/-- As long as nothing is accepted, nobody considered wanted to move. -/
def Idle (c : Central n) (b : Batch n) : Prop :=
  b.acceptedCount = 0 → ∀ i : Fin n, b.considered.get i = true → c.desiredCmd i = .wait

/-- **The first robot that wants to move is accepted**: the cell it wants is open,
so nobody stands on it unless it is a shared place. -/
theorem Idle.consider (hin : ∀ i, InMap (c.robot i).pos) {b : Batch n} (ha : c.Accepted b)
    (h : c.Idle b) (i : Fin n) : c.Idle (c.consider c.stage1 b i) := by
  intro h0 k hk
  unfold Central.consider at h0 hk
  split at h0
  · cases h0
  · rename_i hno
    rw [if_neg hno, get_set_fin] at hk
    split at hk
    · rename_i hik
      subst hik
      refine Classical.byContradiction fun hd => hno ⟨by rwa [stage1_desiredCmd], ?_⟩
      refine canAcceptBatchMove_iff.mpr fun j _ => ?_
      have hj : b.accepted.get j = false := ha.count.mp h0 j
      obtain ⟨-, -, hopen⟩ := isBlockedCell_eq_false_iff.mp (desiredPos_open (hin i) hd)
      unfold inTheWay
      simp only [hj, Bool.false_eq_true, ite_false, stage1_nextPos, decide_eq_false_iff_not,
        Bool.not_eq_true']
      rintro ⟨hns, he⟩
      rcases hopen with hs | ⟨hfree, -⟩
      · rw [hs] at hns
        cases hns
      · exact hfree j he.symm
    · exact h h0 k hk

theorem Idle.acceptLoop (hin : ∀ i, InMap (c.robot i).pos) :
    ∀ (k : Nat) {b : Batch n}, c.Accepted b → c.Idle b → c.Idle (c.acceptLoop c.stage1 k b)
  | 0, _, _, h => h
  | k + 1, b, ha, h => by
    unfold Central.acceptLoop
    split
    · exact h
    · rename_i i hi
      exact Idle.acceptLoop hin k (ha.consider (longestWaiting_some hi).2) (h.consider hin ha i)

/-- **Nothing is accepted iff nobody wants to move.** -/
theorem acceptedCount_eq_zero_iff (hin : ∀ i, InMap (c.robot i).pos) :
    (c.batch c.stage1).acceptedCount = 0 ↔ ∀ i, c.desiredCmd i = .wait := by
  constructor
  · intro h0 i
    have hidle : c.Idle (c.batch c.stage1) := by
      refine Idle.acceptLoop hin n (accepted_empty c) ?_
      intro _ j hj
      rw [get_replicate_fin] at hj
      cases hj
    rcases c.acceptLoop_considered c.stage1 n ⟨.replicate n false, .replicate n false, 0⟩
      (Nat.le_add_left _ _) i with hi | hi
    · exact hidle h0 i hi
    · exact if_pos hi
  · intro hw
    refine (accepted_batch c).count.mpr fun i => ?_
    refine Bool.eq_false_iff.mpr fun hi => ?_
    exact ((accepted_batch c).moves i hi).1 (hw i)

/-! ## Stage 3 -/

theorem keepsBest_betterVictim (c : Central n) :
    KeepsBest c.betterVictim
      (fun i => (c.robot i).taskCompleted = false ∧ c.escape i ≠ .wait)
      (fun i => (some i, c.waitSteps.get i)) Prod.snd := by
  intro best i
  unfold betterVictim
  split
  · rename_i hdone
    exact .inr ⟨fun h => absurd (h.1.symm.trans hdone) Bool.false_ne_true, rfl⟩
  · rename_i hdone
    split
    · rename_i hgood
      exact .inl ⟨⟨⟨by simpa using hdone, hgood.1⟩, hgood.2⟩, rfl⟩
    · rename_i hnot
      exact .inr ⟨fun h => Int.not_lt.mp fun hlt => hnot ⟨h.2, hlt⟩, rfl⟩

/-- What the scan for a victim finds is not done and can make room; it finds nobody only if
nobody can. -/
theorem longestWaitingEscape_cases (c : Central n) :
    (c.longestWaitingEscape = none ∧ ∀ i, 0 ≤ c.waitSteps.get i →
      (c.robot i).taskCompleted = false → c.escape i = .wait) ∨
    ∃ i, c.longestWaitingEscape = some i ∧
      (c.robot i).taskCompleted = false ∧ c.escape i ≠ .wait := by
  rcases (keepsBest_betterVictim c).foldl (List.pairwise_lt_finRange n) (none, -1) with
    ⟨hres, hall⟩ | ⟨i, -, hres, hi, -⟩
  · refine .inl ⟨congrArg Prod.fst hres, fun i hw hi => ?_⟩
    refine Classical.byContradiction fun hne => ?_
    have hle : c.waitSteps.get i ≤ -1 := hall i (List.mem_finRange i) ⟨hi, hne⟩
    omega
  · exact .inr ⟨i, congrArg Prod.fst hres, hi⟩

/-- A victim is not done and can make room. -/
theorem chooseDeadlockVictim_some {v : Fin n} (h : c.chooseDeadlockVictim = some v) :
    (c.robot v).taskCompleted = false ∧ c.escape v ≠ .wait := by
  have hscan : c.longestWaitingEscape = some v →
      (c.robot v).taskCompleted = false ∧ c.escape v ≠ .wait := by
    intro hs
    rcases c.longestWaitingEscape_cases with ⟨hres, -⟩ | ⟨i, hres, hi⟩
    · cases hres.symm.trans hs
    · cases hres.symm.trans hs
      exact hi
  unfold chooseDeadlockVictim at h
  split at h
  · exact hscan h
  · split at h
    · rename_i hgood
      cases h
      exact ⟨by simpa using hgood.1, hgood.2⟩
    · exact hscan h

/-- Without a victim, nobody who is not done can make room. -/
theorem chooseDeadlockVictim_none (h : c.chooseDeadlockVictim = none) (hw : 0 ≤ c.waitSteps.get i)
    (hi : (c.robot i).taskCompleted = false) : c.escape i = .wait := by
  have hscan : c.longestWaitingEscape = none → c.escape i = .wait := by
    intro hs
    rcases c.longestWaitingEscape_cases with ⟨-, hall⟩ | ⟨j, hres, -⟩
    · exact hall i hw hi
    · cases hres.symm.trans hs
  unfold chooseDeadlockVictim at h
  split at h
  · exact hscan h
  · split at h
    · cases h
    · exact hscan h

/-! ## The commands -/

/-- The cell robot `i`'s command leads to. -/
def commandPos (c : Central n) (i : Fin n) : Int × Int :=
  getNextPosition (c.robot i).row (c.robot i).col (c.command.get i)

section
variable {c : Central n} (hin : ∀ i, InMap (c.robot i).pos)
include hin

/-- **The three outcomes of a round.**  If anybody wants to move, the accepted
robots do what they want and the victim is released; else a victim that can make
room does so alone, if there is one. -/
theorem decision_cases :
    ((∃ i, c.desiredCmd i ≠ .wait) ∧ c.decision.sacrificeRobotIdx = none ∧
      (∀ i : Fin n, c.decision.accepted.get i = (c.batch c.stage1).accepted.get i) ∧
      ∀ i : Fin n, c.command.get i =
        if (c.batch c.stage1).accepted.get i then c.desiredCmd i else .wait) ∨
    ((∀ i, c.desiredCmd i = .wait) ∧ c.chooseDeadlockVictim = none ∧
      c.decision.sacrificeRobotIdx = none ∧ (∀ i : Fin n, c.decision.accepted.get i = false) ∧
      ∀ i : Fin n, c.command.get i = .wait) ∨
    ∃ v, (∀ i, c.desiredCmd i = .wait) ∧ c.chooseDeadlockVictim = some v ∧
      c.decision.sacrificeRobotIdx = some v ∧
      (∀ i : Fin n, c.decision.accepted.get i = decide (v = i)) ∧
      ∀ i : Fin n, c.command.get i = if v = i then c.escape v else .wait := by
  have hzero := acceptedCount_eq_zero_iff hin
  by_cases h0 : (c.batch c.stage1).acceptedCount = 0
  · have hnone := (accepted_batch c).count.mp h0
    right
    cases hv : c.chooseDeadlockVictim with
    | none =>
      have hdec : c.decision = ⟨(c.batch c.stage1).accepted, c.stage1.desiredCmd, none⟩ := by
        simp only [decision, h0, ite_true, hv]
      refine Or.inl ⟨hzero.mp h0, rfl, by rw [hdec], fun i => by rw [hdec]; exact hnone i,
        fun i => ?_⟩
      rw [command, get_ofFn_fin, Decision.command, hdec]
      simp only [hnone i, Bool.false_eq_true, ite_false]
    | some v =>
      have hdec : c.decision = ⟨(c.batch c.stage1).accepted.set v true v.isLt,
          c.stage1.desiredCmd.set v (c.escape v) v.isLt, some v⟩ := by
        simp only [decision, h0, ite_true, hv]
      refine Or.inr ⟨v, hzero.mp h0, rfl, by rw [hdec], fun i => ?_, fun i => ?_⟩
      · rw [hdec, get_set_fin, hnone i]
        by_cases hvi : v = i <;> simp [hvi]
      · rw [command, get_ofFn_fin, Decision.command, hdec]
        by_cases hvi : v = i
        · simp [hvi]
        · simp only [get_set_fin, hvi, ite_false, hnone i, Bool.false_eq_true]
  · have hdec : c.decision = ⟨(c.batch c.stage1).accepted, c.stage1.desiredCmd, none⟩ := by
      simp only [decision, h0, ite_false]
    refine Or.inl ⟨?_, by rw [hdec], fun i => by rw [hdec], fun i => ?_⟩
    · exact Classical.not_forall.mp (mt hzero.mpr h0)
    · rw [command, get_ofFn_fin, Decision.command, hdec, stage1_desiredCmd]

/-- **A robot that is told to move is not done, and the cell it is sent to is
open to it.** -/
theorem command_open {i : Fin n} (hi : c.command.get i ≠ .wait) :
    (c.robot i).taskCompleted = false ∧
      isBlockedCell c.robot (c.robot i) (c.commandPos i).1 (c.commandPos i).2 = false := by
  unfold commandPos
  rcases decision_cases hin with ⟨-, -, -, hcmd⟩ | ⟨-, -, -, -, hcmd⟩ | ⟨v, -, hv, -, -, hcmd⟩
  · rw [hcmd i] at hi ⊢
    split at hi
    · rename_i hacc
      rw [if_pos hacc]
      obtain ⟨hd, hdone⟩ := (accepted_batch c).moves i hacc
      exact ⟨hdone, desiredPos_open (hin i) hd⟩
    · exact absurd rfl hi
  · exact absurd (hcmd i) hi
  · rw [hcmd i] at hi ⊢
    split at hi
    · rename_i hvi
      subst hvi
      rw [if_pos rfl]
      obtain ⟨hdone, hesc⟩ := chooseDeadlockVictim_some hv
      refine ⟨hdone, ?_⟩
      rcases getEscapeDirection_spec c.robot (c.robot v) (c.target v) with ⟨hw, -⟩ | hg
      · exact absurd hw hesc
      · exact hg.2.1
    · exact absurd rfl hi

/-- **Two robots that are told to move have no current or next cell in common.** -/
theorem command_apart {i j : Fin n} (hij : i ≠ j) (hi : c.command.get i ≠ .wait)
    (hj : c.command.get j ≠ .wait) :
    (c.robot i).pos ≠ (c.robot j).pos ∧ (c.robot i).pos ≠ c.commandPos j ∧
      c.commandPos i ≠ (c.robot j).pos ∧ c.commandPos i ≠ c.commandPos j := by
  unfold commandPos
  rcases decision_cases hin with ⟨-, -, -, hcmd⟩ | ⟨-, -, -, -, hcmd⟩ | ⟨v, -, -, -, -, hcmd⟩
  · rw [hcmd i, hcmd j] at *
    split at hi
    · rename_i hai
      split at hj
      · rename_i haj
        rw [if_pos hai, if_pos haj]
        have hap := (accepted_batch c).apart i j hai haj hij
        exact ⟨hap.pos_pos, hap.pos_next, hap.next_pos, hap.next_next⟩
      · exact absurd rfl hj
    · exact absurd rfl hi
  · exact absurd (hcmd i) hi
  · rw [hcmd i] at hi
    rw [hcmd j] at hj
    split at hi
    · rename_i hvi
      split at hj
      · rename_i hvj
        exact absurd (hvi.symm.trans hvj) hij
      · exact absurd rfl hj
    · exact absurd rfl hi

/-- If anybody wants to move, somebody is told to do what it wants. -/
theorem command_of_desired (hd : ∃ i, c.desiredCmd i ≠ .wait) :
    ∃ i, c.command.get i ≠ .wait ∧ c.command.get i = c.desiredCmd i := by
  obtain ⟨k, hk⟩ := hd
  rcases decision_cases hin with ⟨hex, -, -, hcmd⟩ | ⟨hw, -⟩ | ⟨v, hw, -⟩
  · have hne : (c.batch c.stage1).acceptedCount ≠ 0 :=
      fun h0 => hk ((acceptedCount_eq_zero_iff hin).mp h0 k)
    obtain ⟨i, hi⟩ := Classical.not_forall.mp (mt (accepted_batch c).count.mpr hne)
    have hacc : (c.batch c.stage1).accepted.get i = true := by simpa using hi
    refine ⟨i, ?_, ?_⟩
    · rw [hcmd i, if_pos hacc]
      exact ((accepted_batch c).moves i hacc).1
    · rw [hcmd i, if_pos hacc]
  · exact absurd (hw k) hk
  · exact absurd (hw k) hk

end

end Central
end Pintos.Warehouse
