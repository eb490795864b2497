import Mathlib.Logic.Relation

/-! # Transition — runs of a step relation under a side condition

A run starts in an initial state and goes from state to state by a step relation; every state it
enters satisfies a side condition `Ok`. Every whole-run result of the development is an instance of
`Reach.invariant`: a property that holds initially and is kept by a step holds in every state a run
reaches.
-/

namespace Transition

variable {σ : Type*}

/-- The states a run reaches from `Init` by `Step`, every state entered on the way satisfying `Ok`. -/
inductive Reach (Init : σ → Prop) (Step : σ → σ → Prop) (Ok : σ → Prop) : σ → Prop
  | init {s : σ} : Init s → Ok s → Reach Init Step Ok s
  | step {s s' : σ} : Reach Init Step Ok s → Step s s' → Ok s' → Reach Init Step Ok s'

variable {Init : σ → Prop} {Step : σ → σ → Prop} {Ok : σ → Prop}

/-- Every state of a run satisfies the side condition. -/
theorem Reach.ok {s : σ} (h : Reach Init Step Ok s) : Ok s := by
  cases h with
  | init _ hok => exact hok
  | step _ _ hok => exact hok

/-- **The invariant rule.** What holds initially and is kept by each step between admitted states
holds in every reached state. -/
theorem Reach.invariant {Inv : σ → Prop}
    (hinit : ∀ s, Init s → Ok s → Inv s)
    (hstep : ∀ s s', Inv s → Ok s → Step s s' → Ok s' → Inv s')
    {s : σ} (h : Reach Init Step Ok s) : Inv s := by
  induction h with
  | init hi hok => exact hinit _ hi hok
  | step hr hs hok ih => exact hstep _ _ ih hr.ok hs hok

/-- **The last change.** Over the first `n` steps of a run, what one reads of the states stays as it is, or some
step is the last to change it. -/
theorem last_change {β : Type*} (read : Nat → β) (n : Nat) : (∀ i ≤ n, read i = read 0) ∨
    ∃ i < n, read (i + 1) ≠ read i ∧ ∀ j, i < j → j ≤ n → read j = read (i + 1) := by
  induction n with
  | zero =>
    apply Or.inl
    intro i hi
    rw [Nat.le_zero.mp hi]
  | succ n ih =>
    by_cases hchanged : read (n + 1) = read n
    case neg =>
      refine Or.inr ⟨n, Nat.lt_succ_self n, hchanged, fun j hnj hj => ?_⟩
      obtain rfl : j = n + 1 := by omega
      rfl
    case pos =>
      rcases ih with hsame | ⟨i, hi, hne, hafter⟩
      · refine Or.inl fun i hi => ?_
        rcases Nat.le_succ_iff.mp hi with hi | rfl
        · exact hsame i hi
        · rw [hchanged]
          exact hsame n (Nat.le_refl n)
      · refine Or.inr ⟨i, Nat.lt_succ_of_lt hi, hne, fun j hij hj => ?_⟩
        rcases Nat.le_succ_iff.mp hj with hj | rfl
        · exact hafter j hij hj
        · rw [hchanged]
          exact hafter n hi (Nat.le_refl n)

end Transition
