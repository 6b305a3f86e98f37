import Mathlib.Logic.Function.Basic
import Mathlib.Data.List.Basic

/-!
# Breadth-first search

A queue-based breadth-first search over a graph given by ordered neighbour
lists, with the three facts its clients use: the parent pointers form a tree
over the discovered vertices, exactly the reachable vertices are discovered, and
the tree's depths are the distances.

The search state keeps the queue in two halves: `done` holds the vertices that
have been expanded, `todo` those still waiting, so that `done ++ todo` is the
array an implementation fills and `done.length` is its head index.  Depths are
part of the state here; an implementation need not store them.

While `u` is being expanded the invariant is `Valid`, which speaks of the
expanded vertices *before* `u`, together with `Layered` at `u`'s depth: every
discovered vertex is at most one level deeper than `u`, and nothing waiting is
shallower.  Expanding the next vertex re-establishes both (`Valid.visit`).
-/

namespace GraphSearch
open List

variable {V : Type} [DecidableEq V]

/-! ## Walks -/

/-- A walk of length `k` from the first vertex to the second. -/
inductive Walk (adj : V → List V) : V → V → Nat → Prop
  | nil (v : V) : Walk adj v v 0
  | cons {u v w : V} {k : Nat} : v ∈ adj u → Walk adj v w k → Walk adj u w (k + 1)

namespace Walk
variable {adj : V → List V}

section
omit [DecidableEq V]

theorem snoc {u v w : V} {k : Nat} (h : Walk adj u v k) (hw : w ∈ adj v) :
    Walk adj u w (k + 1) := by
  induction h with
  | nil v => exact .cons hw (.nil w)
  | cons he _ ih => exact .cons he (ih hw)

theorem eq_of_zero {u v : V} (h : Walk adj u v 0) : u = v := by
  cases h
  rfl

/-- A walk to a smaller graph's vertex is a walk of the larger graph. -/
theorem mono {adj' : V → List V} (hsub : ∀ u v, v ∈ adj u → v ∈ adj' u) {u v : V} {k : Nat}
    (h : Walk adj u v k) : Walk adj' u v k := by
  induction h with
  | nil v => exact .nil v
  | cons he _ ih => exact .cons (hsub _ _ he) ih

/-- A walk does not leave a set of vertices that no edge leaves. -/
theorem mem_of_closed {S : V → Prop} (hS : ∀ u, S u → ∀ v ∈ adj u, S v) {u v : V} {k : Nat}
    (h : Walk adj u v k) (hu : S u) : S v := by
  induction h with
  | nil v => exact hu
  | cons he _ ih => exact ih (hS _ hu _ he)

/-- A walk is at least as long as a potential falls along it, if no edge lowers
the potential by more than one. -/
theorem potential_le {f : V → Int} (hf : ∀ u, ∀ v ∈ adj u, f u ≤ f v + 1) {u v : V} {k : Nat}
    (h : Walk adj u v k) : f u ≤ f v + k := by
  induction h with
  | nil v => omega
  | cons he _ ih =>
    have := hf _ _ he
    push_cast
    omega

end

end Walk

/-! ## The search -/

/-- The state of a search: each discovered vertex's parent (the root's is
itself) and depth, the expanded vertices and the waiting ones. -/
structure Search (V : Type) where
  parent : V → Option V
  depth : V → Nat
  done : List V
  todo : List V

namespace Search

/-- Only the root is discovered. -/
def start (s : V) : Search V where
  parent := Function.update (fun _ => none) s (some s)
  depth := fun _ => 0
  done := []
  todo := [s]

/-- `v` is seen from `u`: if it is new, it gets `u` as its parent and joins the
queue. -/
def discover (u : V) (q : Search V) (v : V) : Search V :=
  if (q.parent v).isSome then q
  else
    { q with
      parent := Function.update q.parent v (some u)
      depth := Function.update q.depth v (q.depth u + 1)
      todo := q.todo ++ [v] }

/-- `u` leaves the queue. -/
def dequeue (q : Search V) (u : V) (rest : List V) : Search V :=
  { q with done := q.done ++ [u], todo := rest }

/-- Expand `u`: its neighbours are seen in order. -/
def visit (adj : V → List V) (q : Search V) (u : V) (rest : List V) : Search V :=
  (adj u).foldl (discover u) (q.dequeue u rest)

/-- Expand waiting vertices until none is left, at most `fuel` of them. -/
def run (adj : V → List V) : Nat → Search V → Search V
  | 0, q => q
  | fuel + 1, q =>
    match q.todo with
    | [] => q
    | u :: rest => run adj fuel (q.visit adj u rest)

/-- The vertices discovered so far, in order of discovery. -/
def queue (q : Search V) : List V := q.done ++ q.todo

/-! ## The invariant -/

variable {adj : V → List V} {s : V} {q : Search V}

/-- The tree invariant: the queue lists the discovered vertices without
repetition, every discovered vertex other than the root hangs below an expanded
one, one level deeper, and the neighbours of every vertex in `closed` are
discovered, at most one level deeper. -/
structure Valid (adj : V → List V) (s : V) (closed : List V) (q : Search V) : Prop where
  nodup : q.queue.Nodup
  mem_iff : ∀ v, v ∈ q.queue ↔ (q.parent v).isSome
  root : q.parent s = some s ∧ q.depth s = 0
  tree : ∀ v u, v ≠ s → q.parent v = some u →
    u ∈ q.done ∧ v ∈ adj u ∧ q.depth v = q.depth u + 1
  edges : ∀ u ∈ closed, ∀ v ∈ adj u, v ∈ q.queue ∧ q.depth v ≤ q.depth u + 1

/-- Nothing discovered is more than one level below `d`, nothing waiting is
above it, and the waiting vertices stand in order of depth. -/
structure Layered (d : Nat) (q : Search V) : Prop where
  upper : ∀ v ∈ q.queue, q.depth v ≤ d + 1
  lower : ∀ v ∈ q.todo, d ≤ q.depth v
  sorted : q.todo.Pairwise (fun u v => q.depth u ≤ q.depth v)

theorem valid_start (s : V) : Valid adj s [] (start s) where
  nodup := by simp [queue, start]
  mem_iff := by
    intro v
    by_cases hv : v = s <;> simp [queue, start, Function.update, hv]
  root := by simp [start]
  tree := by
    intro v u hv hp
    simp [start, Function.update, hv] at hp
  edges := by simp

theorem layered_start (s : V) : Layered 0 (start s) where
  upper := by simp [start]
  lower := by simp
  sorted := by simp [start]

/-- A discovered vertex keeps its depth. -/
theorem discover_depth {u v w : V} (hw : (q.parent w).isSome) :
    (q.discover u v).depth w = q.depth w := by
  unfold discover
  split
  · rfl
  · rename_i hv
    have hne : w ≠ v := fun he => hv (he ▸ hw)
    simp [Function.update, hne]

theorem discover_queue_subset {u v w : V} (hw : w ∈ q.queue) : w ∈ (q.discover u v).queue := by
  unfold discover
  split
  · exact hw
  · simp only [queue, mem_append] at hw ⊢
    rcases hw with hw | hw
    · exact Or.inl hw
    · exact Or.inr (Or.inl hw)

theorem discover_done (u v : V) : (q.discover u v).done = q.done := by
  unfold discover
  split <;> rfl

variable {closed : List V}

/-- After `v` is seen it is in the queue. -/
theorem Valid.mem_discover (h : Valid adj s closed q) (u v : V) :
    v ∈ (q.discover u v).queue := by
  unfold discover
  split
  · rename_i hv
    exact (h.mem_iff v).mpr hv
  · simp [queue]

/-- **Seeing one neighbour of `u`** keeps the invariants, at `u`'s depth. -/
theorem Valid.discover {u v : V} (h : Valid adj s closed q) (hl : Layered (q.depth u) q)
    (hu : u ∈ q.done) (hv : v ∈ adj u) (hclosed : ∀ w ∈ closed, w ∈ q.queue) :
    Valid adj s closed (q.discover u v) ∧ Layered (q.depth u) (q.discover u v) := by
  have huq : u ∈ q.queue := mem_append_left _ hu
  by_cases hnew : (q.parent v).isSome
  · have he : q.discover u v = q := by simp [Search.discover, hnew]
    rw [he]
    exact ⟨h, hl⟩
  have hvq : v ∉ q.queue := fun hin => hnew ((h.mem_iff v).mp hin)
  have hne : ∀ w ∈ q.queue, w ≠ v := fun w hw he => hvq (he ▸ hw)
  have hdepth : ∀ w ∈ q.queue, (q.discover u v).depth w = q.depth w :=
    fun w hw => discover_depth ((h.mem_iff w).mp hw)
  have hq : (q.discover u v).queue = q.queue ++ [v] := by
    simp [Search.discover, hnew, queue]
  have hp : (q.discover u v).parent = Function.update q.parent v (some u) := by
    simp [Search.discover, hnew]
  have hdv : (q.discover u v).depth v = q.depth u + 1 := by
    simp [Search.discover, hnew]
  have htodo : (q.discover u v).todo = q.todo ++ [v] := by
    simp [Search.discover, hnew]
  refine ⟨⟨?_, ?_, ?_, ?_, ?_⟩, ⟨?_, ?_, ?_⟩⟩
  · rw [hq]
    refine nodup_append.mpr ⟨h.nodup, by simp, ?_⟩
    intro a ha b hb
    rw [mem_singleton] at hb
    subst hb
    exact hne a ha
  · intro w
    rw [hq, hp, mem_append, mem_singleton, h.mem_iff w]
    by_cases hw : w = v <;> simp [Function.update, hw]
  · have hs : s ∈ q.queue := (h.mem_iff s).mpr (by rw [h.root.1]; rfl)
    rw [hp, hdepth s hs, Function.update_of_ne (hne s hs)]
    exact h.root
  · intro w x hw hx
    rw [hp] at hx
    rw [discover_done]
    by_cases hwv : w = v
    · subst w
      obtain rfl : u = x := by simpa using hx
      exact ⟨hu, hv, by rw [hdv, hdepth u huq]⟩
    · rw [Function.update_of_ne hwv] at hx
      obtain ⟨hxd, hxa, hxdep⟩ := h.tree w x hw hx
      refine ⟨hxd, hxa, ?_⟩
      rw [hdepth x (mem_append_left _ hxd),
        hdepth w ((h.mem_iff w).mpr (by rw [hx]; rfl)), hxdep]
  · intro w hw x hx
    obtain ⟨hxq, hxd⟩ := h.edges w hw x hx
    rw [hdepth x hxq, hdepth w (hclosed w hw)]
    exact ⟨discover_queue_subset hxq, hxd⟩
  · intro w hw
    rw [hq, mem_append, mem_singleton] at hw
    rcases hw with hw | rfl
    · rw [hdepth w hw]
      exact hl.upper w hw
    · exact Nat.le_of_eq hdv
  · intro w hw
    rw [htodo, mem_append, mem_singleton] at hw
    rcases hw with hw | rfl
    · rw [hdepth w (mem_append_right _ hw)]
      exact hl.lower w hw
    · rw [hdv]
      exact Nat.le_succ _
  · rw [htodo]
    refine pairwise_append.mpr ⟨?_, pairwise_singleton _ _, ?_⟩
    · refine hl.sorted.imp_of_mem ?_
      intro a b ha hb hab
      rwa [hdepth a (mem_append_right _ ha), hdepth b (mem_append_right _ hb)]
    · intro a ha b hb
      rw [mem_singleton] at hb
      subst b
      rw [hdepth a (mem_append_right _ ha), hdv]
      exact hl.upper a (mem_append_right _ ha)

/-- **Seeing several neighbours of `u`** in turn: the invariants survive, the
neighbours are discovered, and nothing discovered before is lost. -/
theorem Valid.foldl_discover {u : V} :
    ∀ (l : List V) (q : Search V), (∀ v ∈ l, v ∈ adj u) → Valid adj s closed q →
      Layered (q.depth u) q → u ∈ q.done → (∀ w ∈ closed, w ∈ q.queue) →
      let q' := l.foldl (Search.discover u) q
      Valid adj s closed q' ∧ Layered (q.depth u) q' ∧ q'.depth u = q.depth u ∧
        q'.done = q.done ∧ (∀ v ∈ l, v ∈ q'.queue) ∧ ∀ w ∈ q.queue, w ∈ q'.queue
  | [], q, _, h, hl, _, _ => ⟨h, hl, rfl, rfl, by simp, fun _ hw => hw⟩
  | v :: l, q, hadj, h, hl, hu, hclosed => by
    have hdu : (q.discover u v).depth u = q.depth u :=
      discover_depth ((h.mem_iff u).mp (mem_append_left _ hu))
    have hstep := h.discover hl hu (hadj v (mem_cons_self ..)) hclosed
    obtain ⟨h1, h2, h3, h4, h5, h6⟩ := foldl_discover l (q.discover u v)
      (fun w hw => hadj w (mem_cons_of_mem _ hw)) hstep.1 (by rw [hdu]; exact hstep.2)
      (by rw [discover_done]; exact hu) (fun w hw => discover_queue_subset (hclosed w hw))
    refine ⟨h1, by rw [hdu] at h2; exact h2, h3.trans hdu, by rw [foldl_cons, h4, discover_done],
      ?_, fun w hw => h6 w (discover_queue_subset hw)⟩
    intro w hw
    rcases mem_cons.mp hw with rfl | hw
    · exact h6 w (h.mem_discover u w)
    · exact h5 w hw

/-- The state between two expansions. -/
def Between (adj : V → List V) (s : V) (q : Search V) : Prop :=
  Valid adj s q.done q ∧ ∃ d, Layered d q

theorem between_start (s : V) : Between adj s (start s) :=
  ⟨valid_start s, 0, layered_start s⟩

omit [DecidableEq V] in
/-- The next vertex leaves the queue. -/
theorem Between.dequeue {u : V} {rest : List V} (h : Between adj s q) (htodo : q.todo = u :: rest) :
    (q.dequeue u rest).queue = q.queue ∧ Valid adj s q.done (q.dequeue u rest) ∧
      Layered (q.depth u) (q.dequeue u rest) := by
  obtain ⟨hv, d, hl⟩ := h
  have hqueue : (q.dequeue u rest).queue = q.queue := by
    simp [queue, Search.dequeue, htodo]
  have hsorted := hl.sorted
  rw [htodo, pairwise_cons] at hsorted
  have hdu : d ≤ q.depth u := hl.lower u (by rw [htodo]; exact mem_cons_self ..)
  refine ⟨hqueue, ⟨by rw [hqueue]; exact hv.nodup, fun w => by rw [hqueue]; exact hv.mem_iff w,
    hv.root, fun w x hw hx => ?_, fun w hw x hx => by rw [hqueue]; exact hv.edges w hw x hx⟩,
    fun w hw => ?_, hsorted.1, hsorted.2⟩
  · obtain ⟨hxd, hxa, hxdep⟩ := hv.tree w x hw hx
    exact ⟨mem_append_left _ hxd, hxa, hxdep⟩
  · rw [hqueue] at hw
    exact Nat.le_trans (hl.upper w hw) (Nat.succ_le_succ hdu)

section
variable {u : V} {rest : List V} (h : Between adj s q) (htodo : q.todo = u :: rest)
include h htodo

/-- **Inside an expansion**, after some of the neighbours. -/
theorem Between.expand {l : List V} (hadj : ∀ v ∈ l, v ∈ adj u) :
    let q' := l.foldl (Search.discover u) (q.dequeue u rest)
    Valid adj s q.done q' ∧ Layered (q.depth u) q' ∧ q'.depth u = q.depth u ∧
      q'.done = q.done ++ [u] ∧ ∀ v ∈ l, v ∈ q'.queue := by
  obtain ⟨hqueue, hv, hl⟩ := h.dequeue htodo
  obtain ⟨h1, h2, h3, h4, h5, -⟩ := Valid.foldl_discover l (q.dequeue u rest) hadj hv hl
    (by simp [Search.dequeue]) (fun w hw => by rw [hqueue]; exact mem_append_left _ hw)
  exact ⟨h1, h2, h3, h4, h5⟩

/-- **One expansion** keeps the invariants and moves one vertex from `todo` to
`done`. -/
theorem Between.visit :
    Between adj s (q.visit adj u rest) ∧ (q.visit adj u rest).done = q.done ++ [u] := by
  obtain ⟨h1, h2, h3, h4, h5⟩ := h.expand htodo fun v hv => hv
  refine ⟨⟨⟨h1.nodup, h1.mem_iff, h1.root, h1.tree, ?_⟩, _, h2⟩, h4⟩
  intro w hw x hx
  rw [Search.visit, h4] at hw
  rcases mem_append.mp hw with hw | hw
  · exact h1.edges w hw x hx
  · rw [mem_singleton] at hw
    subst w
    refine ⟨h5 x hx, ?_⟩
    have hup := h2.upper x (h5 x hx)
    rw [Search.visit, h3]
    exact hup

end

theorem Between.run : ∀ (fuel : Nat) {q : Search V}, Between adj s q →
    Between adj s (run adj fuel q)
  | 0, _, h => h
  | fuel + 1, q, h => by
    unfold Search.run
    split
    · exact h
    · rename_i u rest htodo
      exact Between.run fuel (h.visit htodo).1

/-- A run either empties the queue or expands as many vertices as it has fuel. -/
theorem run_done : ∀ (fuel : Nat) {q : Search V}, Between adj s q →
    (run adj fuel q).todo = [] ∨ (run adj fuel q).done.length = q.done.length + fuel
  | 0, _, _ => Or.inr rfl
  | fuel + 1, q, h => by
    unfold Search.run
    split
    · rename_i htodo
      exact Or.inl htodo
    · rename_i u rest htodo
      obtain ⟨hb, hd⟩ := h.visit htodo
      rcases run_done fuel hb with hr | hr
      · exact Or.inl hr
      · right
        rw [hr, hd, length_append, length_singleton]
        omega

section
variable {closed univ : List V} (h : Valid adj s closed q) (hs : s ∈ univ)
  (hadj : ∀ u, ∀ v ∈ adj u, v ∈ univ)
include h hs hadj

/-- Everything discovered is the root or somebody's neighbour. -/
theorem Valid.queue_subset : ∀ v ∈ q.queue, v ∈ univ := by
  intro v hv
  by_cases hvs : v = s
  · exact hvs ▸ hs
  · obtain ⟨u, hu⟩ := Option.isSome_iff_exists.mp ((h.mem_iff v).mp hv)
    exact hadj u v (h.tree v u hvs hu).2.1

theorem Valid.queue_length_le : q.queue.length ≤ univ.length :=
  List.Nodup.length_le_of_subset h.nodup (h.queue_subset hs hadj)

end

/-- **The search empties its queue** when it has fuel for every vertex there
is. -/
theorem run_todo {univ : List V} (hs : s ∈ univ) (hadj : ∀ u, ∀ v ∈ adj u, v ∈ univ) :
    (run adj univ.length (start s)).todo = [] := by
  have hstart : Between adj s (start s) := between_start s
  have hb : Between adj s (run adj univ.length (start s)) := hstart.run _
  rcases run_done univ.length hstart with h | h
  · exact h
  · have hle := hb.1.queue_length_le hs hadj
    rw [queue, length_append, h] at hle
    exact length_eq_zero_iff.mp (by omega)

/-! ## What a finished search knows -/

/-- A finished search: the invariant holds and nothing is waiting. -/
structure Finished (adj : V → List V) (s : V) (q : Search V) : Prop where
  valid : Valid adj s q.done q
  todo : q.todo = []

theorem finished_run {univ : List V} (hs : s ∈ univ) (hadj : ∀ u, ∀ v ∈ adj u, v ∈ univ) :
    Finished adj s (run adj univ.length (start s)) :=
  ⟨((between_start s).run _).1, run_todo hs hadj⟩

/-- The depth of a vertex is the length of a walk from the root. -/
theorem Valid.walk_depth (h : Valid adj s closed q) :
    ∀ (d : Nat) {v : V}, q.depth v = d → (q.parent v).isSome → Walk adj s v d := by
  intro d
  induction d with
  | zero =>
    intro v hd hp
    by_cases hv : v = s
    · rw [hv]
      exact .nil s
    · obtain ⟨u, hu⟩ := Option.isSome_iff_exists.mp hp
      have := (h.tree v u hv hu).2.2
      omega
  | succ d ih =>
    intro v hd hp
    have hv : v ≠ s := by
      intro he
      rw [he, h.root.2] at hd
      cases hd
    obtain ⟨u, hu⟩ := Option.isSome_iff_exists.mp hp
    obtain ⟨hud, hva, hvd⟩ := h.tree v u hv hu
    have hup : (q.parent u).isSome := (h.mem_iff u).mp (mem_append_left _ hud)
    exact (ih (by omega) hup).snoc hva

section
omit [DecidableEq V]

/-- **The depth is a shortest distance**: no walk from a discovered vertex is
shorter than the depths allow, and everything on it is discovered. -/
theorem Finished.depth_le (h : Finished adj s q) {a v : V} {k : Nat} (hw : Walk adj a v k)
    (ha : a ∈ q.queue) : v ∈ q.queue ∧ q.depth v ≤ q.depth a + k := by
  induction hw with
  | nil v => exact ⟨ha, Nat.le_refl _⟩
  | @cons u v w k he _ ih =>
    have hdone : u ∈ q.done := by
      rwa [queue, h.todo, append_nil] at ha
    obtain ⟨hvq, hvd⟩ := h.valid.edges u hdone v he
    obtain ⟨hwq, hwd⟩ := ih hvq
    exact ⟨hwq, by omega⟩

theorem Finished.root_mem (h : Finished adj s q) : s ∈ q.queue :=
  (h.valid.mem_iff s).mpr (by rw [h.valid.root.1]; rfl)

end

/-- **Exactly the reachable vertices are discovered.** -/
theorem Finished.discovered_iff (h : Finished adj s q) (v : V) :
    (q.parent v).isSome ↔ ∃ k, Walk adj s v k := by
  constructor
  · intro hp
    exact ⟨_, h.valid.walk_depth _ rfl hp⟩
  · rintro ⟨k, hk⟩
    exact (h.valid.mem_iff v).mp (h.depth_le hk h.root_mem).1

omit [DecidableEq V] in
/-- **Depths are distances.** -/
theorem Finished.depth_le_walk (h : Finished adj s q) {v : V} {k : Nat} (hk : Walk adj s v k) :
    q.depth v ≤ k := by
  have := (h.depth_le hk h.root_mem).2
  rw [h.valid.root.2] at this
  omega

/-! ## Following the parents -/

/-- The vertices met from `v` upwards, `v` first, the root excluded. -/
def chase (parent : V → Option V) (s : V) : Nat → V → List V
  | 0, _ => []
  | fuel + 1, v => if v = s then [] else v :: chase parent s fuel ((parent v).getD s)

/-- **The way up is as long as the vertex is deep**; the last vertex met is the
root's child on a walk to `v` that is one shorter. -/
theorem Valid.chase_spec (h : Valid adj s closed q) :
    ∀ (d fuel : Nat) (v : V), q.depth v = d → (q.parent v).isSome → d ≤ fuel →
      (chase q.parent s fuel v).length = d ∧
      (v ≠ s → ∃ c, (chase q.parent s fuel v).getLast? = some c ∧ c ∈ adj s ∧
        Walk adj c v (d - 1)) := by
  intro d
  induction d with
  | zero =>
    intro fuel v hd hp _
    have hv : v = s := ((h.walk_depth 0 hd hp).eq_of_zero).symm
    refine ⟨?_, fun hne => absurd hv hne⟩
    cases fuel <;> simp [chase, hv]
  | succ d ih =>
    intro fuel v hd hp hle
    have hv : v ≠ s := by
      intro he
      rw [he, h.root.2] at hd
      cases hd
    obtain ⟨u, hu⟩ := Option.isSome_iff_exists.mp hp
    obtain ⟨hud, hva, hvd⟩ := h.tree v u hv hu
    have hup : (q.parent u).isSome := (h.mem_iff u).mp (mem_append_left _ hud)
    obtain ⟨fuel, rfl⟩ : ∃ m, fuel = m + 1 := ⟨fuel - 1, by omega⟩
    obtain ⟨hlen, hlast⟩ := ih fuel u (by omega) hup (by omega)
    have hchase : chase q.parent s (fuel + 1) v = v :: chase q.parent s fuel u := by
      simp [chase, hv, hu]
    rw [hchase]
    refine ⟨by rw [length_cons, hlen], fun _ => ?_⟩
    by_cases hus : u = s
    · -- `v` itself is the root's child
      subst u
      have hnil : chase q.parent s fuel s = [] := by
        cases fuel <;> simp [chase]
      rw [h.root.2] at hvd
      obtain rfl : d = 0 := by omega
      exact ⟨v, by rw [hnil]; rfl, hva, .nil v⟩
    · obtain ⟨c, hc, hcs, hw⟩ := hlast hus
      have hd1 : d ≠ 0 := by
        intro hd0
        subst d
        exact hus ((h.walk_depth 0 (by omega) hup).eq_of_zero).symm
      refine ⟨c, ?_, hcs, ?_⟩
      · rw [getLast?_cons, hc]
        rfl
      · have hsnoc := hw.snoc hva
        rwa [show d - 1 + 1 = d + 1 - 1 from by omega] at hsnoc

/-- The way up meets discovered vertices only, none of them twice, and gets
shallower all the way. -/
theorem Valid.chase_nodup (h : Valid adj s closed q) :
    ∀ (fuel : Nat) (v : V), (q.parent v).isSome →
      (chase q.parent s fuel v).Nodup ∧
      ∀ x ∈ chase q.parent s fuel v, x ∈ q.queue ∧ x ≠ s ∧ q.depth x ≤ q.depth v
  | 0, _, _ => by simp [chase]
  | fuel + 1, v, hp => by
    unfold chase
    split
    · simp
    · rename_i hv
      obtain ⟨u, hu⟩ := Option.isSome_iff_exists.mp hp
      obtain ⟨hud, -, hvd⟩ := h.tree v u hv hu
      obtain ⟨hnd, hmem⟩ := chase_nodup h fuel u ((h.mem_iff u).mp (mem_append_left _ hud))
      rw [hu, Option.getD_some]
      refine ⟨nodup_cons.mpr ⟨fun hin => ?_, hnd⟩, fun x hx => ?_⟩
      · have := (hmem v hin).2.2
        omega
      · rcases mem_cons.mp hx with rfl | hx
        · exact ⟨(h.mem_iff x).mpr hp, hv, Nat.le_refl _⟩
        · obtain ⟨hxq, hxs, hxd⟩ := hmem x hx
          exact ⟨hxq, hxs, by omega⟩

/-- **The tree is no deeper than it has vertices.** -/
theorem Valid.depth_lt_length (h : Valid adj s closed q) {v : V} (hp : (q.parent v).isSome) :
    q.depth v < q.queue.length := by
  obtain ⟨hnd, hmem⟩ := h.chase_nodup (q.depth v) v hp
  have hlen := (h.chase_spec _ _ v rfl hp (Nat.le_refl _)).1
  have hs : s ∈ q.queue := (h.mem_iff s).mpr (by rw [h.root.1]; rfl)
  have hnd' : (s :: chase q.parent s (q.depth v) v).Nodup :=
    nodup_cons.mpr ⟨fun hin => (hmem s hin).2.1 rfl, hnd⟩
  have hle := List.Nodup.length_le_of_subset hnd' (show _ ⊆ q.queue from by
    intro x hx
    rcases mem_cons.mp hx with rfl | hx
    · exact hs
    · exact (hmem x hx).1)
  rw [length_cons, hlen] at hle
  exact hle

end Search
end GraphSearch
