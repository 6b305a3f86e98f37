import Pintos.WarehousePath

/-!
# The corridor

The cells that are neither shared places nor items form a line of fifteen cells,
the corridor; the shared places and the items hang on it.  Robots cannot pass each
other there, and a robot blocks its own cell, so a shortest way to a target never
turns back (`Approach.side`): it leads to a cell next to the target with no other
robot in between.

A place on the corridor is counted from either end (`coord`), so that every
argument is made once, for robots that walk towards place 0.
-/

namespace Pintos.Warehouse
open GraphSearch

variable {n : Nat}

/-! ## Places -/

/-- The cells of the corridor, from one side of item `7` to the other. -/
def corridor : List (Int × Int) :=
  [(1, 2), (1, 1), (2, 1), (3, 1), (4, 1), (5, 1), (5, 2), (5, 3), (5, 4), (5, 5),
   (4, 5), (3, 5), (2, 5), (1, 5), (1, 4)]

/-- The place of a cell on the corridor; a shared place is counted with the cell it
hangs on. -/
def place (p : Int × Int) : Int :=
  if p = (rowA, colA) then 1
  else if p = (rowB, colB) then 3
  else if p = (rowC, colC) then 5
  else if p = (rowW, colW) then 9
  else corridor.idxOf p

/-- The place counted from the end `e`. -/
def coord (e : Bool) (p : Int × Int) : Int := if e then place p else 14 - place p

theorem coord_not (e : Bool) (p : Int × Int) : coord (!e) p = 14 - coord e p := by
  cases e with
  | true => rfl
  | false =>
    show place p = 14 - (14 - place p)
    omega

variable {p q : Int × Int} {e : Bool}

/-- A step by one place is one for both ways of counting. -/
theorem coord_step (h : coord e q = coord e p - 1) (e' : Bool) :
    coord e' q = coord e' p - 1 ∨ coord e' q = coord e' p + 1 := by
  by_cases he : e' = e
  · exact Or.inl (by rw [he, h])
  · have hp := coord_not e p
    have hq := coord_not e q
    rw [Bool.eq_not_of_ne he]
    omega

/-- The two cells are next to each other. -/
def NextTo (p q : Int × Int) : Prop := ∃ d ∈ directions, getNextPosition p.1 p.2 d = q

instance (p q : Int × Int) : Decidable (NextTo p q) :=
  inferInstanceAs (Decidable (∃ d ∈ directions, _))

theorem corridor_spec (hp : p ∈ corridor) :
    InMap p ∧ ¬IsWall p ∧ ¬IsItemCell p ∧ ¬IsShared p ∧ ∀ e, 0 ≤ coord e p ∧ coord e p ≤ 14 := by
  revert p
  decide +kernel

theorem coord_injective (hp : p ∈ corridor) (hq : q ∈ corridor)
    (h : coord e p = coord e q) : p = q := by
  revert q
  revert p
  revert e
  decide +kernel

/-- A cell that is neither a wall nor an item's is a corridor cell or a shared
place. -/
def OnLine (p : Int × Int) : Prop := InMap p ∧ ¬IsWall p ∧ ¬IsItemCell p

instance (p : Int × Int) : Decidable (OnLine p) := inferInstanceAs (Decidable (_ ∧ _ ∧ _))

theorem OnLine.cases (h : OnLine p) : p ∈ corridor ∨ IsShared p := by
  have hcell := mem_cells.mpr h.1
  revert h
  revert p
  decide +kernel

/-- **Steps on the line**: along the corridor by one place, towards one of its
ends, or between a shared place and the corridor cell it hangs on. -/
theorem OnLine.step (hp : OnLine p) (hq : OnLine q) (h : NextTo p q) :
    (p ∈ corridor ∧ q ∈ corridor ∧ ∃ e, coord e q = coord e p - 1) ∨
    ((p ∈ corridor ∧ IsShared q ∨ IsShared p ∧ q ∈ corridor) ∧ ∀ e, coord e q = coord e p) := by
  have hcell := mem_cells.mpr hp.1
  obtain ⟨d, hd, rfl⟩ := h
  revert hq
  revert d
  revert hp
  revert p
  decide +kernel

/-- Items hang on the corridor. -/
theorem OnLine.corridor_of_item (hp : OnLine p) (hq : IsItemCell q) (h : NextTo p q) :
    p ∈ corridor := by
  have hcell := mem_cells.mpr hp.1
  obtain ⟨d, hd, rfl⟩ := h
  revert hq
  revert d
  revert hp
  revert p
  decide +kernel

/-- A shared place hangs on a corridor cell. -/
theorem exists_corridor_of_shared (hin : InMap q) (hq : IsShared q) :
    ∃ p ∈ corridor, NextTo p q ∧ ∀ e, coord e p = coord e q := by
  rw [← mem_cells] at hin
  revert q
  decide +kernel

theorem onLine_of_corridor (hp : p ∈ corridor) : OnLine p :=
  let h := corridor_spec hp
  ⟨h.1, h.2.1, h.2.2.1⟩

/-! ## Walks on the line -/

section Line
variable {robots : Fin n → Robot} {r : Robot}

theorem mem_openNeighbours_iff : q ∈ openNeighbours robots r p ↔
    NextTo p q ∧ isBlockedCell robots r q.1 q.2 = false := by
  rw [mem_openNeighbours]
  constructor
  · rintro ⟨d, hd, rfl, hopen⟩
    exact ⟨⟨d, hd, rfl⟩, hopen⟩
  · rintro ⟨⟨d, hd, rfl⟩, hopen⟩
    exact ⟨d, hd, rfl, hopen⟩

/-- Nobody can enter a corridor cell with a robot on it. -/
theorem not_open_of_robot (hp : p ∈ corridor) {j : Fin n}
    (hj : (robots j).pos = p) : ¬isBlockedCell robots r p.1 p.2 = false := by
  intro hopen
  obtain ⟨-, -, hcell⟩ := isBlockedCell_eq_false_iff.mp hopen
  rcases hcell with hshared | ⟨hfree, -⟩
  · exact (corridor_spec hp).2.2.2.1 hshared
  · exact hfree j hj

/-- What the robot may head for: the one item cell that is open to it, or a shared
place. -/
structure Target (robots : Fin n → Robot) (r : Robot) (t : Int × Int) : Prop where
  inMap : InMap t
  kind : IsItemCell t ∨ IsShared t
  item : ∀ q, IsItemCell q → isBlockedCell robots r q.1 q.2 = false → q = t

/-- **Walks are confined between two robots**: from a cell between the places `a`
and `b`, where robots stand or the corridor ends, no walk leads to a target that
hangs on no place in between. -/
theorem confined {t : Int × Int} (ht : Target robots r t) {a b : Int}
    (ha : a = -1 ∨ ∃ j, (robots j).pos ∈ corridor ∧ coord e (robots j).pos = a)
    (hb : ∃ j, (robots j).pos ∈ corridor ∧ coord e (robots j).pos = b)
    (hgoal : ∀ g ∈ corridor, NextTo g t → a < coord e g → ¬coord e g < b)
    (hp : OnLine p) (hpa : a < coord e p) (hpb : coord e p < b) {k : Nat} :
    ¬OpenWalk robots r p t k := by
  intro hwalk
  have hend : OnLine t ∧ a < coord e t ∧ coord e t < b := by
    refine hwalk.mem_of_closed (S := fun q => OnLine q ∧ a < coord e q ∧ coord e q < b) ?_
      ⟨hp, hpa, hpb⟩
    rintro u ⟨hu, hua, hub⟩ v hv
    obtain ⟨hnext, hopen⟩ := mem_openNeighbours_iff.mp hv
    obtain ⟨hin, hwall, -⟩ := isBlockedCell_eq_false_iff.mp hopen
    by_cases hitem : IsItemCell v
    · obtain rfl := ht.item v hitem hopen
      exact absurd hub (hgoal u (hu.corridor_of_item hitem hnext) hnext hua)
    · have hv : OnLine v := ⟨hin, hwall, hitem⟩
      rcases hu.step hv hnext with ⟨-, hvc, e', hstep⟩ | ⟨-, hsame⟩
      · -- the next place is `a` or `b` only if a robot stands there
        have hne : ∀ x, (∃ j, (robots j).pos ∈ corridor ∧ coord e (robots j).pos = x) →
            coord e v ≠ x := by
          rintro x ⟨j, hj, rfl⟩ heq
          exact not_open_of_robot hvc (coord_injective hj hvc heq.symm) hopen
        have hva : coord e v ≠ a := by
          rcases ha with rfl | hrobot
          · have := ((corridor_spec hvc).2.2.2.2 e).1
            omega
          · exact hne a hrobot
        have hvb := hne b hb
        have hdist := coord_step hstep e
        exact ⟨hv, by omega, by omega⟩
      · rw [hsame e]
        exact ⟨hv, hua, hub⟩
  obtain ⟨hline, hta, htb⟩ := hend
  rcases ht.kind with hitem | hshared
  · exact hline.2.2 hitem
  · obtain ⟨g, hg, hnext, hsame⟩ := exists_corridor_of_shared hline.1 hshared
    rw [← hsame e] at hta htb
    exact hgoal g hg hnext hta htb

/-- From a shared place one can go only to the corridor cell it hangs on. -/
theorem leave_shared (hp : OnLine p) (hshared : IsShared p) (hnext : NextTo p q)
    (hopen : isBlockedCell robots r q.1 q.2 = false) :
    q ∈ corridor ∧ ∀ e, coord e q = coord e p := by
  have hnot : p ∉ corridor := fun hp => (corridor_spec hp).2.2.2.1 hshared
  obtain ⟨hin, hwall, -⟩ := isBlockedCell_eq_false_iff.mp hopen
  by_cases hitem : IsItemCell q
  · exact absurd (hp.corridor_of_item hitem hnext) hnot
  · rcases hp.step ⟨hin, hwall, hitem⟩ hnext with ⟨hc, -⟩ | ⟨⟨hc, -⟩ | ⟨-, hq⟩, hsame⟩
    · exact absurd hc hnot
    · exact absurd hc hnot
    · exact ⟨hq, hsame⟩

/-! ## Approaching a target -/

/-- **The robot makes the first step of a shortest way** to `t`. -/
structure Approach (robots : Fin n → Robot) (r : Robot) (t next : Int × Int) : Prop where
  step : NextTo r.pos next
  opened : isBlockedCell robots r next.1 next.2 = false
  shortest : ∃ m, OpenWalk robots r next t m ∧ ∀ j, OpenWalk robots r r.pos t j → m + 1 ≤ j

/-- A robot whose target the search has reached approaches it. -/
theorem getNextDirection_approach (hin : InMap r.pos) {t : Int × Int} (ht : t ≠ r.pos)
    (hreached : (bfs robots r).parent t.1 t.2 ≠ -1) :
    getNextDirection robots r t.1 t.2 ≠ .wait ∧
      Approach robots r t
        (getNextPosition r.row r.col (getNextDirection robots r t.1 t.2)) := by
  obtain ⟨k, hwalk⟩ := (bfs_reached_iff robots hin).mp hreached
  obtain ⟨hd, hopen, hshort⟩ := getNextDirection_reachable robots hin hwalk ht
  refine ⟨hd, ⟨_, ?_, rfl⟩, hopen, hshort⟩
  generalize getNextDirection robots r t.1 t.2 = d at hd
  cases d <;> simp_all [directions]

/-- The end of a walk is open, if it is not its beginning. -/
theorem open_of_openWalk {k : Nat} (h : OpenWalk robots r p q k) :
    p = q ∨ isBlockedCell robots r q.1 q.2 = false := by
  induction h with
  | nil v => exact Or.inl rfl
  | cons he _ ih =>
    rcases ih with rfl | hopen
    · exact Or.inr (mem_openNeighbours_iff.mp he).2
    · exact Or.inr hopen

namespace Approach
variable {t next : Int × Int}

theorem target_open (h : Approach robots r t next) : isBlockedCell robots r t.1 t.2 = false := by
  obtain ⟨m, hwalk, -⟩ := h.shortest
  rcases open_of_openWalk hwalk with rfl | hopen
  · exact h.opened
  · exact hopen

/-- A robot next to its target enters it. -/
theorem eq_of_nextTo (h : Approach robots r t next) (hnext : NextTo r.pos t) : next = t := by
  obtain ⟨m, hwalk, hmin⟩ := h.shortest
  have hm := hmin 1 (.cons (mem_openNeighbours_iff.mpr ⟨hnext, h.target_open⟩) (.nil t))
  obtain rfl : m = 0 := by omega
  exact hwalk.eq_of_zero

theorem onLine (h : Approach robots r t next) (ht : Target robots r t) (hne : next ≠ t) :
    OnLine next := by
  obtain ⟨hin, hwall, -⟩ := isBlockedCell_eq_false_iff.mp h.opened
  exact ⟨hin, hwall, fun hitem => hne (ht.item next hitem h.opened)⟩

variable {i : Fin n}

section
variable (h : Approach robots r t next) (ht : Target robots r t) (hi : (robots i).pos = r.pos)
  (hpos : r.pos ∈ corridor)
include h ht hi hpos

/-- **From the corridor a robot goes on along it**, or enters its target: a shared
place on the way would be a dead end. -/
theorem of_corridor : next ∈ corridor ∨ next = t := by
  by_cases hne : next = t
  · exact Or.inr hne
  refine Or.inl ?_
  have hline := h.onLine ht hne
  rcases (onLine_of_corridor hpos).step hline h.step with ⟨-, hc, -⟩ | ⟨-, hsame⟩
  · exact hc
  · rcases hline.cases with hc | hshared
    · exact hc
    · obtain ⟨m, hwalk, -⟩ := h.shortest
      cases hwalk with
      | nil => exact absurd rfl hne
      | cons he _ =>
        -- the only way on is back over the robot's own cell
        obtain ⟨hstep, hopen⟩ := mem_openNeighbours_iff.mp he
        have hv := leave_shared hline hshared hstep hopen
        have heq := coord_injective (e := true) hpos hv.1 (by rw [hv.2, hsame])
        exact absurd hopen (not_open_of_robot hv.1 (hi.trans heq))

/-- **A robot on the corridor never turns back**: if it goes on along the corridor,
its target hangs on a place ahead, with no other robot in between. -/
theorem side (hnext : next ∈ corridor) :
    ∃ e, coord e next = coord e r.pos - 1 ∧
      (∃ g ∈ corridor, NextTo g t ∧ coord e g < coord e r.pos) ∧
      ∀ j, (robots j).pos ∈ corridor → coord e (robots j).pos < coord e r.pos →
        ∃ g ∈ corridor, NextTo g t ∧ coord e (robots j).pos < coord e g ∧
          coord e g < coord e r.pos := by
  have hline := onLine_of_corridor hnext
  obtain ⟨m, hwalk, -⟩ := h.shortest
  have hown : ∀ e, ∃ j, (robots j).pos ∈ corridor ∧ coord e (robots j).pos = coord e r.pos :=
    fun e => ⟨i, hi ▸ hpos, by rw [hi]⟩
  rcases (onLine_of_corridor hpos).step hline h.step with ⟨-, -, e, hstep⟩ | ⟨hkind, -⟩
  · refine ⟨e, hstep, ?_, fun j hj hlt => ?_⟩
    · refine Classical.byContradiction fun hno => ?_
      refine confined ht (Or.inl rfl) (hown e) (fun g hg hgt _ hlt => hno ⟨g, hg, hgt, hlt⟩) hline
        ?_ (by omega) hwalk
      have := ((corridor_spec hnext).2.2.2.2 e).1
      omega
    · refine Classical.byContradiction fun hno => ?_
      refine confined ht (Or.inr ⟨j, hj, rfl⟩) (hown e)
        (fun g hg hgt hjg hlt => hno ⟨g, hg, hgt, hjg, hlt⟩) hline ?_ (by omega) hwalk
      have hne : coord e (robots j).pos ≠ coord e next := fun heq =>
        not_open_of_robot hnext (coord_injective hj hnext heq) h.opened
      omega
  · rcases hkind with ⟨-, hshared⟩ | ⟨hshared, -⟩
    · exact absurd hshared (corridor_spec hnext).2.2.2.1
    · exact absurd hshared (corridor_spec hpos).2.2.2.1

end

end Approach

/-! ## Item 7

It hangs on both ends of the corridor, so here the shorter way counts. -/

/-- The cell of item `7`. -/
def cell7 : Int × Int := (1, 3)

theorem coord_of_nextTo_cell7 {g : Int × Int} (hg : g ∈ corridor) (h : NextTo g cell7) (e : Bool) :
    coord e g = 0 ∨ coord e g = 14 := by
  revert g e
  decide +kernel

/-- From every cell the way to the end `e` goes on, and ends next to item `7`. -/
theorem exists_nearer (hp : p ∈ corridor) (e : Bool) :
    (coord e p = 0 ∧ NextTo p cell7) ∨
      ∃ q ∈ corridor, NextTo p q ∧ coord e q = coord e p - 1 := by
  revert p e
  decide +kernel

/-- A free corridor is a way to item `7`. -/
theorem openWalk_cell7 (h7 : isBlockedCell robots r cell7.1 cell7.2 = false) :
    ∀ (k : Nat) {p : Int × Int}, p ∈ corridor → coord e p = k →
      (∀ q ∈ corridor, coord e q < coord e p → isBlockedCell robots r q.1 q.2 = false) →
      OpenWalk robots r p cell7 (k + 1)
  | k, p, hp, hk, hfree => by
    rcases exists_nearer hp e with ⟨hzero, hnext⟩ | ⟨q, hq, hnext, hstep⟩
    · obtain rfl : k = 0 := by omega
      exact .cons (mem_openNeighbours_iff.mpr ⟨hnext, h7⟩) (.nil _)
    · match k with
      | 0 =>
        have := ((corridor_spec hq).2.2.2.2 e).1
        omega
      | k + 1 =>
        have hwalk := openWalk_cell7 h7 k hq (by omega)
          fun q' hq' hlt => hfree q' hq' (by omega)
        exact .cons (mem_openNeighbours_iff.mpr ⟨hnext, hfree q hq (by omega)⟩) hwalk

/-- How far it is to item `7` towards the end `e`, for a robot that cannot turn
back over its own cell at place `x`. -/
def reach (e : Bool) (x : Int) (q : Int × Int) : Int :=
  if OnLine q ∧ coord e q < x then coord e q + 1 else 0

/-- No step shortens this way by more than one. -/
theorem reach_le (ht : Target robots r cell7) {i : Fin n}
    (hi : (robots i).pos = r.pos) (hpos : r.pos ∈ corridor) (u : Int × Int) :
    ∀ v ∈ openNeighbours robots r u,
      reach e (coord e r.pos) u ≤ reach e (coord e r.pos) v + 1 := by
  intro v hv
  obtain ⟨hnext, hopen⟩ := mem_openNeighbours_iff.mp hv
  obtain ⟨hin, hwall, -⟩ := isBlockedCell_eq_false_iff.mp hopen
  have hend := ((corridor_spec hpos).2.2.2.2 e).2
  unfold reach
  by_cases hu : OnLine u ∧ coord e u < coord e r.pos
  · rw [if_pos hu]
    by_cases hitem : IsItemCell v
    · -- only place 0 is left of the robot's and next to the item
      obtain rfl := ht.item v hitem hopen
      have hplace := coord_of_nextTo_cell7 (hu.1.corridor_of_item hitem hnext) hnext e
      rw [if_neg fun h => h.1.2.2 hitem]
      omega
    · have hline : OnLine v := ⟨hin, hwall, hitem⟩
      rcases hu.1.step hline hnext with ⟨-, hvc, e', hstep⟩ | ⟨-, hsame⟩
      · have hne : coord e v ≠ coord e r.pos := fun heq =>
          not_open_of_robot hvc (hi.trans (coord_injective hpos hvc heq.symm)) hopen
        have hdist := coord_step hstep e
        rw [if_pos ⟨hline, by omega⟩]
        omega
      · rw [if_pos ⟨hline, by rw [hsame e]; exact hu.2⟩, hsame e]
        omega
  · rw [if_neg hu]
    split
    · rename_i hv
      rcases hv.1.cases with hc | hs
      · have := ((corridor_spec hc).2.2.2.2 e).1
        omega
      · obtain ⟨g, hg, -, hsame⟩ := exists_corridor_of_shared hin hs
        have := ((corridor_spec hg).2.2.2.2 e).1
        rw [hsame e] at this
        omega
    · omega

/-- **Alone on the corridor, a robot takes the shorter way to item `7`.** -/
theorem Approach.shorter_way {next : Int × Int} (h : Approach robots r cell7 next)
    (ht : Target robots r cell7) {i : Fin n} (hi : (robots i).pos = r.pos)
    (hpos : r.pos ∈ corridor) (hnext : next ∈ corridor)
    (halone : ∀ j, (robots j).pos ∈ corridor → (robots j).pos = r.pos)
    (hstep : coord e next = coord e r.pos - 1) : coord e r.pos ≤ coord (!e) r.pos := by
  obtain ⟨m, hwalk, hmin⟩ := h.shortest
  have hlower := hwalk.potential_le (f := reach e (coord e r.pos)) (reach_le ht hi hpos)
  have hfrom : reach e (coord e r.pos) next = coord e r.pos := by
    rw [reach, if_pos ⟨onLine_of_corridor hnext, by omega⟩]
    omega
  have hto : reach e (coord e r.pos) cell7 = 0 := by
    rw [reach, if_neg fun h => absurd h.1 (by decide)]
  have hother := (corridor_spec hpos).2.2.2.2 (!e)
  have hfree : ∀ q ∈ corridor, coord (!e) q < coord (!e) r.pos →
      isBlockedCell robots r q.1 q.2 = false := by
    intro q hq hlt
    obtain ⟨hin, hwall, hitem, -⟩ := corridor_spec hq
    refine isBlockedCell_eq_false_iff.mpr ⟨hin, hwall, Or.inr ⟨fun j hj => ?_, fun hi => ?_⟩⟩
    · have hpos' := halone j (hj ▸ hq)
      rw [← hj, hpos'] at hlt
      omega
    · exact absurd hi hitem
  have hway := openWalk_cell7 (e := !e) h.target_open (coord (!e) r.pos).toNat hpos (by omega) hfree
  have := hmin _ hway
  omega

end Line

/-! ## The other targets

The places they hang on are so close together that any of them will do. -/

/-- The cells of items `1` to `6` and the unloading places. -/
def targets : List (Int × Int) :=
  [(2, 2), (3, 2), (4, 2), (2, 4), (3, 4), (4, 4), (rowA, colA), (rowB, colB), (rowC, colC)]

/-- How far a corridor cell is from the nearest place the target hangs on. -/
def gap (t p : Int × Int) : Nat :=
  (((corridor.filter fun g => NextTo g t).map fun g => (place p - place g).natAbs).min?).getD 0

theorem gap_le {t p : Int × Int} (ht : t ∈ targets) (hp : p ∈ corridor) : gap t p ≤ 14 := by
  revert p
  revert t
  decide +kernel

/-- A step towards any place the target hangs on narrows the gap. -/
theorem gap_lt {t p q : Int × Int} (ht : t ∈ targets) (hp : p ∈ corridor) (hq : q ∈ corridor)
    {e : Bool} (hstep : coord e q = coord e p - 1) (hnot : ¬NextTo p t)
    (hgoal : ∃ g ∈ corridor, NextTo g t ∧ coord e g < coord e p) : gap t q < gap t p := by
  revert q
  revert p
  revert t
  revert e
  decide +kernel

end Pintos.Warehouse
