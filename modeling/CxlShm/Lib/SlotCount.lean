import Mathlib.Data.Finset.Card
import Mathlib.Logic.Function.Basic
import Mathlib.Tactic.Ring

/-! # SlotCount — how many cells of a finite set hold a given value

The counting side of reference counting: a finite set `S` of cells, a memory `w`, and the number of
cells of `S` that hold `v`. One store changes that number by the difference between what the cell
held and what it holds now.
-/

namespace SlotCount

variable {ι α : Type*} [DecidableEq α]

/-- The number of cells of `S` that hold `v` in the memory `w`. -/
def holding (S : Finset ι) (w : ι → α) (v : α) : Nat := (S.filter fun a => w a = v).card

/-- `1` when the two values agree, `0` otherwise: what one cell adds to `holding`. -/
def hit (x v : α) : Nat := if x = v then 1 else 0

@[simp] theorem hit_self (v : α) : hit v v = 1 := by simp [hit]

theorem hit_ne {x v : α} (h : x ≠ v) : hit x v = 0 := by simp [hit, h]

theorem holding_congr {S : Finset ι} {w w' : ι → α} (v : α) (h : ∀ a ∈ S, w a = w' a) :
    holding S w v = holding S w' v := by
  unfold holding
  congr 1
  exact Finset.filter_congr fun a ha => by rw [h a ha]

/-- Cells that hold something else do not count. -/
theorem holding_of_subset {S T : Finset ι} {w : ι → α} {v : α} (h : S ⊆ T)
    (hne : ∀ a ∈ T, a ∉ S → w a ≠ v) : holding S w v = holding T w v := by
  unfold holding
  congr 1
  ext a
  simp only [Finset.mem_filter]
  constructor
  · rintro ⟨ha, hw⟩
    exact ⟨h ha, hw⟩
  · rintro ⟨ha, hw⟩
    exact ⟨by_contra fun hn => hne a ha hn hw, hw⟩

theorem holding_pos {S : Finset ι} {w : ι → α} {a : ι} (ha : a ∈ S) : 0 < holding S w (w a) :=
  Finset.card_pos.mpr ⟨a, Finset.mem_filter.mpr ⟨ha, rfl⟩⟩

theorem holding_eq_zero_iff {S : Finset ι} {w : ι → α} {v : α} :
    holding S w v = 0 ↔ ∀ a ∈ S, w a ≠ v := by
  unfold holding
  rw [Finset.card_eq_zero, Finset.filter_eq_empty_iff]

/-- A count of one names the cell. -/
theorem eq_of_holding_eq_one {S : Finset ι} {w : ι → α} {v : α} {a b : ι}
    (h : holding S w v = 1) (ha : a ∈ S) (hav : w a = v) (hb : b ∈ S) (hbv : w b = v) : a = b := by
  obtain ⟨c, hc⟩ := Finset.card_eq_one.mp h
  have ha' : a ∈ S.filter fun x => w x = v := Finset.mem_filter.mpr ⟨ha, hav⟩
  have hb' : b ∈ S.filter fun x => w x = v := Finset.mem_filter.mpr ⟨hb, hbv⟩
  rw [hc, Finset.mem_singleton] at ha' hb'
  rw [ha', hb']

variable [DecidableEq ι]

/-- A cell outside `S` does not count. -/
theorem holding_update_notMem {S : Finset ι} {a : ι} (w : ι → α) (x v : α) (ha : a ∉ S) :
    holding S (Function.update w a x) v = holding S w v := by
  refine holding_congr v fun b hb => ?_
  rw [Function.update_of_ne]
  rintro rfl
  exact ha hb

/-- The cells of `S` other than `a`, plus what `a` itself adds. -/
theorem holding_erase_add {S : Finset ι} {a : ι} (w : ι → α) (v : α) (ha : a ∈ S) :
    holding S w v = holding (S.erase a) w v + hit (w a) v := by
  unfold holding hit
  by_cases h : w a = v
  · have hmem : a ∈ S.filter fun b => w b = v := Finset.mem_filter.mpr ⟨ha, h⟩
    rw [if_pos h, Finset.filter_erase, Finset.card_erase_add_one hmem]
  · have hnot : a ∉ S.filter fun b => w b = v := fun hm => h (Finset.mem_filter.mp hm).2
    rw [if_neg h, Finset.filter_erase, Finset.erase_eq_of_notMem hnot, Nat.add_zero]

/-- **One store.** Storing `x` at a cell `a` of `S` moves the count from `w a` to `x`. -/
theorem holding_update_mem {S : Finset ι} {a : ι} (w : ι → α) (x v : α) (ha : a ∈ S) :
    holding S (Function.update w a x) v + hit (w a) v = holding S w v + hit x v := by
  have hrest : holding (S.erase a) (Function.update w a x) v = holding (S.erase a) w v :=
    holding_update_notMem w x v (Finset.notMem_erase a S)
  rw [holding_erase_add (Function.update w a x) v ha, holding_erase_add w v ha,
    Function.update_self, hrest]
  ring

end SlotCount
