import Mathlib.Logic.Function.Basic
import Mathlib.Tactic.Ring

/-! # RingWindow — a circular buffer as a window on an endless sequence

`N` cells hold the entries `h, …, h + N - 1` of a sequence, entry `n` in cell `n % N`. Entries get
absolute positions that never wrap, so that "one further" is `n + 1`; the indices the program stores
are their remainders.
-/

namespace RingWindow

variable {α : Type*} {N h n n' : Nat}

/-! ## §1 — positions and remainders -/

/-- Positions of one window are told apart by their remainders. -/
theorem eq_of_mod_eq (hn : h ≤ n) (hnN : n < h + N) (hn' : h ≤ n') (hnN' : n' < h + N)
    (he : n % N = n' % N) : n = n' := by
  have key : ∀ a b, a ≤ b → b < a + N → a % N = b % N → a = b := by
    intro a b hab hlt hmod
    have hdvd : N ∣ b - a := Nat.dvd_of_mod_eq_zero (Nat.sub_mod_eq_zero_of_mod_eq hmod.symm)
    have hzero := Nat.eq_zero_of_dvd_of_lt hdvd (by omega)
    omega
  rcases Nat.le_total n n' with hle | hle
  · exact key n n' hle (by omega) he
  · exact (key n' n hle (by omega) he.symm).symm

/-- Every cell belongs to a position of the window. -/
theorem exists_position (h : Nat) {k : Nat} (hk : k < N) :
    ∃ n, h ≤ n ∧ n < h + N ∧ n % N = k := by
  have hN : 0 < N := by omega
  have hmod := Nat.mod_lt h hN
  have hdiv := Nat.div_add_mod h N
  by_cases hle : h % N ≤ k
  · refine ⟨N * (h / N) + k, by omega, by omega, ?_⟩
    rw [Nat.mul_add_mod, Nat.mod_eq_of_lt hk]
  · refine ⟨N * (h / N + 1) + k, ?_, ?_, ?_⟩
    · rw [Nat.mul_add]
      omega
    · rw [Nat.mul_add]
      omega
    · rw [Nat.mul_add_mod, Nat.mod_eq_of_lt hk]

/-- **The distance of two indices.** Computed on the remainders it is the distance of the
positions. -/
theorem distance (hn : h ≤ n) (hnN : n < h + N) : (n % N + N - h % N) % N = n - h := by
  have hN : 0 < N := by omega
  have hmod := Nat.mod_lt h hN
  have hsplit : n % N + N - h % N = n % N + (N - h % N) := by omega
  have hdiv := Nat.div_add_mod h N
  have hshift : n + (N - h % N) = (n - h) + N * (h / N + 1) := by
    rw [Nat.mul_add]
    omega
  rw [hsplit, Nat.add_mod, Nat.mod_mod, ← Nat.add_mod, hshift, Nat.add_mul_mod_self_left]
  exact Nat.mod_eq_of_lt (by omega)

/-- The index after the last one is the first again. -/
theorem mod_add_one (n N : Nat) : (n % N + 1) % N = (n + 1) % N := by
  rw [Nat.add_mod, Nat.mod_mod, ← Nat.add_mod]

/-! ## §2 — the window -/

/-- The cells hold the entries of `f` from position `h` on. -/
def Window (N : Nat) (cell f : Nat → α) (h : Nat) : Prop :=
  ∀ n, h ≤ n → n < h + N → cell (n % N) = f n

variable {cell cell' f f' : Nat → α}

theorem Window.congr (hw : Window N cell f h) (hcell : ∀ k < N, cell' k = cell k)
    (hf : ∀ n, h ≤ n → n < h + N → f' n = f n) : Window N cell' f' h := by
  intro n hn hnN
  rw [hcell _ (Nat.mod_lt _ (by omega)), hf n hn hnN]
  exact hw n hn hnN

/-- **Filling a cell** is the same as changing the sequence at its position. -/
theorem Window.fill (hw : Window N cell f h) {t : Nat} (ht : h ≤ t) (htN : t < h + N) (x : α)
    (hcell : ∀ k < N, cell' k = Function.update cell (t % N) x k) :
    Window N cell' (Function.update f t x) h := by
  intro n hn hnN
  rw [hcell _ (Nat.mod_lt _ (by omega))]
  by_cases hnt : n = t
  · subst hnt
    rw [Function.update_self, Function.update_self]
  · have hmod : n % N ≠ t % N := fun he => hnt (eq_of_mod_eq hn hnN ht htN he)
    rw [Function.update_of_ne hmod, Function.update_of_ne hnt]
    exact hw n hn hnN

/-- **Emptying the first cell** moves the window by one: the cell now belongs to the position after
the last. -/
theorem Window.advance (hw : Window N cell f h) {x : α} (hx : f (h + N) = x)
    (hcell : ∀ k < N, cell' k = Function.update cell (h % N) x k) :
    Window N cell' f (h + 1) := by
  intro n hn hnN
  rw [hcell _ (Nat.mod_lt _ (by omega))]
  by_cases hlast : n = h + N
  · rw [hlast, Nat.add_mod_right, Function.update_self, hx]
  · have hmod : n % N ≠ h % N := by
      intro he
      have := eq_of_mod_eq (show h ≤ n by omega) (by omega) (Nat.le_refl h) (by omega) he
      omega
    rw [Function.update_of_ne hmod]
    exact hw n (by omega) (by omega)

end RingWindow
