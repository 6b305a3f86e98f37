/-!
# Transition systems

Labelled transition systems, their reachable states and their timed runs, with
the two induction rules used throughout: an invariant of every reachable state,
and a property that, once it holds in a run, holds for the rest of it.  Most of the
systems are functions with a guard (`guarded`), whose runs can be given by their
labels (`Run.of_labels`).
-/

/-- A labelled transition system. -/
structure TransitionSystem (State Label : Type) where
  /-- The states a run may begin in. -/
  init : State → Prop
  /-- The steps, each with its label. -/
  step : State → Label → State → Prop

namespace TransitionSystem

variable {State Label : Type} (M : TransitionSystem State Label)

/-- The states that can be reached. -/
inductive Reachable : State → Prop
  | init {s : State} : M.init s → Reachable s
  | step {s s' : State} {l : Label} : Reachable s → M.step s l s' → Reachable s'

/-- A run of `N` steps: the state at every instant up to `N` and the label of the
step taken at each instant before `N`. -/
structure Run (N : Nat) (state : Nat → State) (label : Nat → Label) : Prop where
  init : M.init (state 0)
  step : ∀ t, t < N → M.step (state t) (label t) (state (t + 1))

variable {M}

/-- **An invariant holds in every reachable state.** -/
theorem Reachable.invariant {P : State → Prop} (hinit : ∀ s, M.init s → P s)
    (hstep : ∀ s l s', P s → M.step s l s' → P s') {s : State} (h : M.Reachable s) : P s := by
  induction h with
  | init h => exact hinit _ h
  | step _ hs ih => exact hstep _ _ _ ih hs

namespace Run
variable {N : Nat} {state : Nat → State} {label : Nat → Label}

theorem reachable (h : M.Run N state label) : ∀ {t : Nat}, t ≤ N → M.Reachable (state t)
  | 0, _ => .init h.init
  | t + 1, ht => .step (h.reachable (by omega)) (h.step t (by omega))

end Run

/-! ## Runs from a list of labels -/

/-- The state after the first `t` of the given labels. -/
def after (apply : State → Label → State) (s : State) (labels : List Label) (t : Nat) : State :=
  (labels.take t).foldl apply s

theorem after_succ (apply : State → Label → State) (s : State) (labels : List Label) (d : Label)
    {t : Nat} (ht : t < labels.length) :
    after apply s labels (t + 1) = apply (after apply s labels t) (labels.getD t d) := by
  unfold after
  rw [List.take_succ_eq_append_getElem ht, List.foldl_append, List.getD_eq_getElem?_getD,
    List.getElem?_eq_getElem ht]
  rfl

/-! ## Sequences of states -/

section Sequence
variable {state : Nat → State} {P : State → Prop}

/-- **What every step keeps stays true** from the instant it first holds. -/
theorem keep {t u : Nat} (htu : t ≤ u)
    (hstep : ∀ v, t ≤ v → v < u → P (state v) → P (state (v + 1))) (ht : P (state t)) :
    P (state u) := by
  induction htu with
  | refl => exact ht
  | @step u hle ih =>
    exact hstep u hle (Nat.lt_succ_self u) (ih fun v hv hvu => hstep v hv (Nat.lt_succ_of_lt hvu))

/-- **What holds later but not now comes about in some step.** -/
theorem exists_step {t u : Nat} (htu : t ≤ u) (ht : ¬P (state t)) (hu : P (state u)) :
    ∃ v, t ≤ v ∧ v < u ∧ ¬P (state v) ∧ P (state (v + 1)) := by
  obtain ⟨d, rfl⟩ := Nat.exists_eq_add_of_le htu
  clear htu
  induction d with
  | zero => exact absurd hu ht
  | succ d ih =>
    by_cases hd : P (state (t + d))
    · obtain ⟨v, h1, h2, h3⟩ := ih hd
      exact ⟨v, h1, by omega, h3⟩
    · exact ⟨t + d, by omega, by omega, hd, hu⟩

end Sequence

/-! ## Guarded functions -/

/-- The system of a function with a guard: it has one first state, and a step is taken
where `Enabled` allows it and does what `apply` says. -/
def guarded (start : State) (Enabled : State → Label → Prop) (apply : State → Label → State) :
    TransitionSystem State Label where
  init s := s = start
  step s l s' := Enabled s l ∧ s' = apply s l

section Guarded
variable {start : State} {Enabled : State → Label → Prop} {apply : State → Label → State}

/-- A list of labels that can be taken one after the other is a run. -/
theorem Run.of_labels (labels : List Label) (d : Label)
    (h : ∀ t, t < labels.length → Enabled (after apply start labels t) (labels.getD t d)) :
    (guarded start Enabled apply).Run labels.length (after apply start labels)
      fun t => labels.getD t d :=
  ⟨rfl, fun t ht => ⟨h t ht, after_succ apply start labels d ht⟩⟩

/-- **An invariant of a run**, where the labels of the run may be restricted. -/
theorem Run.invariant {N : Nat} {state : Nat → State} {label : Nat → Label} {P : State → Prop}
    (hrun : (guarded start Enabled apply).Run N state label) (hstart : P start)
    (hstep : ∀ t, t < N → P (state t) → Enabled (state t) (label t) →
      P (apply (state t) (label t))) {t : Nat} (ht : t ≤ N) : P (state t) := by
  have hinit : state 0 = start := hrun.init
  refine keep (Nat.zero_le t) (fun u _ hut h => ?_) (hinit ▸ hstart)
  have hu : u < N := Nat.lt_of_lt_of_le hut ht
  obtain ⟨henabled, heq⟩ := hrun.step u hu
  rw [heq]
  exact hstep u hu h henabled

end Guarded

/-! ## Guarded functions that may fail -/

/-- The system of a function with a guard that may fail: no step is taken where it
does. -/
def checked (Start : State → Prop) (Enabled : State → Label → Prop)
    (apply : State → Label → Option State) : TransitionSystem State Label where
  init := Start
  step s l s' := Enabled s l ∧ apply s l = some s'

/-- The function, with nothing done where it fails. -/
def orSelf (apply : State → Label → Option State) (s : State) (l : Label) : State :=
  (apply s l).getD s

/-- A list of labels that can be taken one after the other without a failure is a run. -/
theorem Run.of_checked_labels {Start : State → Prop} {Enabled : State → Label → Prop}
    {apply : State → Label → Option State} {s : State} (hs : Start s) (labels : List Label)
    (d : Label)
    (h : ∀ t, t < labels.length →
      Enabled (after (orSelf apply) s labels t) (labels.getD t d) ∧
        (apply (after (orSelf apply) s labels t) (labels.getD t d)).isSome = true) :
    (checked Start Enabled apply).Run labels.length (after (orSelf apply) s labels)
      fun t => labels.getD t d := by
  refine ⟨hs, fun t ht => ⟨(h t ht).1, ?_⟩⟩
  obtain ⟨s', hs'⟩ := Option.isSome_iff_exists.mp (h t ht).2
  rw [after_succ _ s labels d ht, orSelf, hs', Option.getD_some]

end TransitionSystem
