import CxlShm.Lib.Loop

/-! # LinkedStack — a stack of linked cells

A stack is a head and a link in each cell. A cell is first linked to the head, then the head is moved to it; the
whole stack is taken by clearing the head. Cells that are not on the stack may be written at any time.
-/

namespace LinkedStack

open Loop

variable {α : Type*}

/-- The links from the head on spell `l`, and no cell twice. -/
structure Spells (next : α → Option α) (head : Option α) (l : List α) : Prop where
  chain : Chained next head l
  nodup : l.Nodup

variable {next next' : α → Option α} {head : Option α} {l : List α} {x : α}

theorem Spells.empty (next : α → Option α) : Spells next none [] := ⟨rfl, List.nodup_nil⟩

/-- Writes to other cells. -/
theorem Spells.congr (h : Spells next head l) (hn : ∀ y ∈ l, next' y = next y) : Spells next' head l :=
  ⟨h.chain.congr hn, h.nodup⟩

/-- **Push**: the head moves to a cell that is linked to it. -/
theorem Spells.push (h : Spells next head l) (hx : x ∉ l) (hlink : next x = head) : Spells next (some x) (x :: l) :=
  ⟨⟨rfl, hlink ▸ h.chain⟩, List.nodup_cons.mpr ⟨hx, h.nodup⟩⟩

/-- The first cell, and the stack behind it. -/
theorem Spells.uncons (h : Spells next (some x) l) : ∃ r, l = x :: r ∧ x ∉ r ∧ Spells next (next x) r := by
  cases l with
  | nil => cases h.chain
  | cons y r =>
    obtain ⟨hxy, hr⟩ := h.chain
    obtain rfl := Option.some.inj hxy
    obtain ⟨hnot, hnodup⟩ := List.nodup_cons.mp h.nodup
    exact ⟨r, rfl, hnot, hr, hnodup⟩

theorem Spells.eq_nil (h : Spells next none l) : l = [] := by
  cases l with
  | nil => rfl
  | cons y r => cases h.chain.1

end LinkedStack
