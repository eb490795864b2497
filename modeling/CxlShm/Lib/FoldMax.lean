import Mathlib.Data.List.Basic
import Mathlib.Data.List.Range

/-! # FoldMax — running maxima over a list

The two scanning loops of a recovery procedure: a running maximum that skips one index, and a
running choice of the entry with the largest key.
-/

namespace FoldMax

/-- `acc` raised to the largest `f j` over the indices `j` of `l` other than `skip`. -/
def maxSkip (f : Nat → Nat) (skip : Nat) (l : List Nat) (acc : Nat) : Nat :=
  l.foldl (fun acc j => if j = skip then acc else if f j > acc then f j else acc) acc

/-- The running maximum reaches `e` exactly when it started there or some scanned index does. -/
theorem le_maxSkip_iff (f : Nat → Nat) (skip e : Nat) (l : List Nat) (acc : Nat) :
    e ≤ maxSkip f skip l acc ↔ e ≤ acc ∨ ∃ j ∈ l, j ≠ skip ∧ e ≤ f j := by
  induction l generalizing acc with
  | nil => simp [maxSkip]
  | cons k l ih =>
    have hcons : maxSkip f skip (k :: l) acc =
        maxSkip f skip l (if k = skip then acc else if f k > acc then f k else acc) := rfl
    rw [hcons, ih]
    simp only [List.mem_cons, exists_eq_or_imp]
    by_cases hk : k = skip
    · simp [hk]
    · by_cases hf : f k > acc
      · simp only [hk, hf, if_false, if_true, ne_eq, not_false_eq_true, true_and]
        constructor
        · rintro (h | h)
          · exact Or.inr (Or.inl h)
          · exact Or.inr (Or.inr h)
        · rintro (h | h | h)
          · exact Or.inl (by omega)
          · exact Or.inl h
          · exact Or.inr h
      · simp only [hk, hf, if_false, ne_eq, not_false_eq_true, true_and]
        constructor
        · rintro (h | h)
          · exact Or.inl h
          · exact Or.inr (Or.inr h)
        · rintro (h | h | h)
          · exact Or.inl h
          · exact Or.inl (by omega)
          · exact Or.inr h

/-- The entry with the largest key seen so far; on equal keys the earlier one stays. -/
def pick {α : Type*} (key : α → Nat) (l : List α) (acc : α) : α :=
  l.foldl (fun acc x => if key x > key acc then x else acc) acc

theorem pick_of_le {α : Type*} (key : α → Nat) (l : List α) (acc : α)
    (h : ∀ x ∈ l, key x ≤ key acc) : pick key l acc = acc := by
  induction l generalizing acc with
  | nil => rfl
  | cons y l ih =>
    have hy : ¬ key y > key acc := Nat.not_lt.mpr (h y List.mem_cons_self)
    have hcons : pick key (y :: l) acc = pick key l (if key y > key acc then y else acc) := rfl
    rw [hcons, if_neg hy]
    exact ih acc fun x hx => h x (List.mem_cons_of_mem _ hx)

/-- The pick is one of the entries. -/
theorem pick_mem {α : Type*} (key : α → Nat) (l : List α) (acc : α) :
    pick key l acc = acc ∨ pick key l acc ∈ l := by
  induction l generalizing acc with
  | nil => exact Or.inl rfl
  | cons y l ih =>
    show pick key l (if key y > key acc then y else acc) = acc ∨
      pick key l (if key y > key acc then y else acc) ∈ y :: l
    split
    · rcases ih y with h | h
      · rw [h]
        exact Or.inr List.mem_cons_self
      · exact Or.inr (List.mem_cons_of_mem _ h)
    · exact (ih acc).imp id (List.mem_cons_of_mem _)

/-- No entry has a larger key than the pick. -/
theorem le_key_pick {α : Type*} (key : α → Nat) (l : List α) (acc : α) :
    key acc ≤ key (pick key l acc) ∧ ∀ x ∈ l, key x ≤ key (pick key l acc) := by
  induction l generalizing acc with
  | nil => exact ⟨Nat.le_refl _, fun x hx => absurd hx List.not_mem_nil⟩
  | cons y l ih =>
    show key acc ≤ key (pick key l (if key y > key acc then y else acc)) ∧
      ∀ x ∈ y :: l, key x ≤ key (pick key l (if key y > key acc then y else acc))
    obtain ⟨hacc, hl⟩ := ih (if key y > key acc then y else acc)
    have hboth : key acc ≤ key (if key y > key acc then y else acc) ∧
        key y ≤ key (if key y > key acc then y else acc) := by
      split <;> omega
    refine ⟨Nat.le_trans hboth.1 hacc, ?_⟩
    intro x hx
    rcases List.mem_cons.mp hx with rfl | hx
    · exact Nat.le_trans hboth.2 hacc
    · exact hl x hx

/-- **A strict maximum is picked.** If the key of `x` exceeds the key of every other entry, the
start value included, the scan ends on `x`. -/
theorem pick_eq {α : Type*} (key : α → Nat) (l : List α) (acc x : α) (hx : x = acc ∨ x ∈ l)
    (hacc : x ≠ acc → key acc < key x) (hl : ∀ y ∈ l, y = x ∨ key y < key x) :
    pick key l acc = x := by
  induction l generalizing acc with
  | nil =>
    rcases hx with rfl | hx
    · rfl
    · exact absurd hx List.not_mem_nil
  | cons y l ih =>
    have hcons : pick key (y :: l) acc = pick key l (if key y > key acc then y else acc) := rfl
    have hl' : ∀ z ∈ l, z = x ∨ key z < key x := fun z hz => hl z (List.mem_cons_of_mem _ hz)
    rw [hcons]
    rcases hl y List.mem_cons_self with rfl | hyx
    · -- the entry itself comes up: it replaces a smaller one or is there already
      by_cases hya : key y > key acc
      · rw [if_pos hya]
        exact ih y (Or.inl rfl) (fun h => absurd rfl h) hl'
      · rw [if_neg hya]
        have hyacc : y = acc := by
          by_contra hne
          exact hya (hacc hne)
        exact ih acc (Or.inl hyacc) hacc hl'
    · have hxy : x ≠ y := by
        rintro rfl
        exact Nat.lt_irrefl _ hyx
      by_cases hxacc : x = acc
      · subst hxacc
        rw [if_neg (Nat.not_lt.mpr (Nat.le_of_lt hyx))]
        exact ih x (Or.inl rfl) (fun h => absurd rfl h) hl'
      · have hxl : x ∈ l := by
          rcases hx with h | h
          · exact absurd h hxacc
          · exact (List.mem_cons.mp h).resolve_left hxy
        by_cases hya : key y > key acc
        · rw [if_pos hya]
          exact ih y (Or.inr hxl) (fun _ => hyx) hl'
        · rw [if_neg hya]
          exact ih acc (Or.inr hxl) (fun _ => hacc hxacc) hl'

end FoldMax
